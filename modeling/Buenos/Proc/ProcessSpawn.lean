import Buenos.Proc.ProcessInvariant

/-! The steps of `process_spawn` keep the invariant. -/
namespace Buenos.Proc

open Buenos.Foundation

section Steps
variable {s : Processes}

def tableSlots : List Int := [0, 1, 2, 3, 4, 5, 6, 7]

/-- At most `PROCESS_MAX_PROCESSES` entries are used at a time. -/
def Roomy : Action → Processes → Prop
  | .spawn _ _, s => ∃ p ∈ tableSlots, (s.table p).state = .free
  | _, _ => True

theorem freeEntry_inside (room : ∃ p ∈ tableSlots, (s.table p).state = .free) :
    ∃ pid, freeEntry s = some pid ∧ InTable pid ∧ (s.table pid).state = .free := by
  have found : ((tableSlots.find? fun i => (s.table i).state = .free)).isSome = true := by
    rw [List.find?_isSome]
    obtain ⟨p,member,free⟩ := room
    exact ⟨p,member,by simpa using free⟩
  obtain ⟨pid,at_⟩ := Option.isSome_iff_exists.mp found
  have member := List.mem_of_find?_eq_some at_
  have split : scanned = tableSlots ++ [8] := rfl
  refine ⟨pid,?_,?_,by simpa using List.find?_some at_⟩
  · unfold freeEntry
    rw [split,List.find?_append,at_]
    rfl
  · simp only [tableSlots,List.mem_cons,List.not_mem_nil,or_false] at member
    exact ⟨by omega,by simp only [processMaxProcesses]; omega⟩

theorem Threads.idle_ready (threads : Threads s) (idle : s.threads who = .idle) (process : 0 < who) :
    Ready s (s.slot who) := by
  have lives := threads.born_lt (c := who) (by simp [idle])
  obtain ⟨mine,running⟩ := threads.alive who ⟨process,lives,by simp [idle]⟩
  refine ⟨threads.slots who process lives,by simp [running],?_⟩
  rw [mine]
  exact threads.built who process (by simp [idle])

theorem Threads.spawning_running (threads : Threads s) (spawning : (s.threads w).spawns = some pid) :
    (s.table pid).state = .running := by
  obtain ⟨-,positive,slot,-,absent⟩ := threads.spawning w pid spawning
  have := (threads.alive _ ⟨positive,threads.occupants pid,by simp [absent]⟩).2
  rwa [slot] at this

/-- What the allocation does: the free entry `pid` is taken by process `s.next`, and the
records of older processes and of other entries are unchanged. -/
structure Allocates (who : Nat) (pid : Int) (executable : List UInt8) (s t : Processes) : Prop where
  inside : InTable pid
  free : (s.table pid).state = .free
  lives : who < s.next
  next : t.next = s.next + 1
  table : ∀ p, p ≠ pid → t.table p = s.table p
  here : (t.table pid).state = .running
  links : ∀ p, (t.table p).firstZombie = (s.table p).firstZombie ∧
    (t.table p).nextZombie = (s.table p).nextZombie ∧ (t.table p).prevZombie = (s.table p).prevZombie
  occupant : ∀ p, p ≠ pid → t.occupant p = s.occupant p
  taken : t.occupant pid = s.next
  slot : ∀ c, c < s.next → t.slot c = s.slot c
  placed : t.slot s.next = pid
  spawner : ∀ c, c < s.next → t.spawner c = s.spawner c
  creator : t.spawner s.next = who
  phase : ∀ w, w ≠ who → t.threads w = s.threads w
  mine : t.threads who = .allocated pid executable
  rest : t.built = s.built ∧ t.waiting = s.waiting ∧ t.passed = s.passed ∧ t.joins = s.joins

theorem Threads.allocates (threads : Threads s) (idle : s.threads who = .idle) (executable : List UInt8)
    (room : ∃ p ∈ tableSlots, (s.table p).state = .free) :
    ∃ pid, Allocates who pid executable s (processSpawn who executable s) := by
  obtain ⟨pid,found,inside,free⟩ := freeEntry_inside room
  have result : processSpawn who executable s = { s with
      table := Function.update s.table pid { (s.table pid).reset with state := .running }
      threads := Function.update s.threads who (.allocated pid executable)
      next := s.next + 1
      occupant := Function.update s.occupant pid s.next
      slot := Function.update s.slot s.next pid
      spawner := Function.update s.spawner s.next who } := by
    simp [processSpawn,allocProcessId,found,processReset,Processes.modify,Processes.goto]
  rw [result]
  refine ⟨pid,inside,free,threads.born_lt (by simp [idle]),rfl,?_,by simp,?_,?_,by simp,?_,by simp,?_,
    by simp,?_,by simp,⟨rfl,rfl,rfl,rfl⟩⟩
  · intro p apart; simp [apart]
  · intro p
    by_cases same : p = pid
    · subst same; simp [Entry.reset]
    · simp [same]
  · intro p apart; simp [apart]
  · intro c old; simp [Nat.ne_of_lt old]
  · intro c old; simp [Nat.ne_of_lt old]
  · intro w apart; simp [apart]

section Allocation
variable {t : Processes} {who : Nat} {pid : Int} {executable : List UInt8}

theorem Allocates.alive (does : Allocates who pid executable s t) (threads : Threads s)
    (idle : s.threads who = .idle) (c : Nat) : Alive t c ↔ Alive s c ∨ c = s.next := by
  unfold Alive
  by_cases same : c = who
  · subst same
    have := does.lives
    simp [does.mine,idle,does.next]
    omega
  · rw [does.phase c same,does.next]
    constructor
    · rintro ⟨positive,small,unfinished⟩
      by_cases new : c = s.next
      · exact .inr new
      · exact .inl ⟨positive,by omega,unfinished⟩
    · rintro (⟨positive,small,unfinished⟩ | rfl)
      · exact ⟨positive,by omega,unfinished⟩
      · exact ⟨threads.born.1,by omega,by simp [threads.unborn s.next (Nat.le_refl s.next)]⟩

theorem Allocates.ready (does : Allocates who pid executable s t) (threads : Threads s) (p : Int) :
    Ready t p ↔ Ready s p := by
  unfold Ready
  by_cases same : p = pid
  · subst same
    constructor
    · rintro ⟨-,-,built⟩
      rw [does.taken,does.rest.1,threads.unbuilt s.next (Nat.le_refl s.next)] at built
      contradiction
    · rintro ⟨-,used,-⟩; exact absurd does.free used
  · rw [does.table p same,does.occupant p same,does.rest.1]

theorem Allocates.apart (does : Allocates who pid executable s t) (made : Ready s p) : p ≠ pid := by
  rintro rfl
  exact made.2.1 does.free

theorem Allocates.joined (does : Allocates who pid executable s t) (c : Nat) :
    WasJoined t c ↔ WasJoined s c := by
  unfold WasJoined
  rw [does.rest.2.2.2]

theorem Allocates.older (does : Allocates who pid executable s t) (small : c < t.next) :
    c < s.next ∨ c = s.next := by
  rw [does.next] at small
  omega

theorem Allocates.unspawned (does : Allocates who pid executable s t) (threads : Threads s)
    (spawning : (s.threads w).spawns = some q) : q ≠ pid := by
  rintro rfl
  have running := threads.spawning_running spawning
  rw [does.free] at running
  contradiction

theorem Allocates.spawners (does : Allocates who pid executable s t) (threads : Threads s) (positive : 0 < c)
    (small : c < t.next) : t.spawner c < t.next ∧ t.threads (t.spawner c) ≠ .absent := by
  rw [does.next]
  rcases does.older small with earlier | rfl
  · obtain ⟨first,second⟩ := threads.spawners c positive earlier
    rw [does.spawner c earlier]
    refine ⟨Nat.lt_succ_of_lt first,?_⟩
    by_cases same : s.spawner c = who
    · rw [same,does.mine]; simp
    · rwa [does.phase _ same]
  · rw [does.creator,does.mine]
    exact ⟨Nat.lt_succ_of_lt does.lives,by simp⟩

theorem Allocates.spawning (does : Allocates who pid executable s t) (threads : Threads s) (idle : s.threads who = .idle)
    (spawning : (t.threads w).spawns = some q) : InTable q ∧ 0 < t.occupant q ∧ t.slot (t.occupant q) = q ∧
    t.spawner (t.occupant q) = w ∧ t.threads (t.occupant q) = .absent := by
  have old := threads.occupants
  by_cases same : w = who
  · subst same
    rw [does.mine] at spawning
    obtain rfl : pid = q := by simpa [Phase.spawns] using spawning
    rw [does.taken,does.placed,does.creator,does.phase s.next (by have := does.lives; omega)]
    exact ⟨does.inside,threads.born.1,rfl,rfl,threads.unborn s.next (Nat.le_refl s.next)⟩
  · rw [does.phase w same] at spawning
    have other := does.unspawned threads spawning
    obtain ⟨within,positive,there,spawned,absent⟩ := threads.spawning w q spawning
    rw [does.occupant q other,does.slot _ (old q),does.spawner _ (old q),does.phase _ (by
      rintro same; rw [same,idle] at absent; contradiction)]
    exact ⟨within,positive,there,spawned,absent⟩

theorem Threads.allocated (threads : Threads s) (does : Allocates who pid executable s t)
    (idle : s.threads who = .idle) : Threads t := by
  have old := threads.occupants
  refine ⟨?_,⟨by rw [does.next]; omega,?_⟩,?_,?_,?_,?_,?_,?_,?_,?_,?_,?_,?_,?_⟩
  · rw [does.slot 0 threads.born.1,threads.startup]
  · by_cases same : 0 = who
    · rw [same,does.mine]; simp
    · rw [does.phase 0 same]; exact threads.born.2
  · intro c late
    have := does.lives
    rw [does.next] at late
    rw [does.phase c (by omega)]
    exact threads.unborn c (by omega)
  · intro p
    rw [does.next]
    by_cases same : p = pid
    · rw [same,does.taken]; omega
    · rw [does.occupant p same]
      exact Nat.lt_succ_of_lt (old p)
  · intro c positive small
    rcases does.older small with earlier | rfl
    · rw [does.slot c earlier]
      exact threads.slots c positive earlier
    · rw [does.placed]; exact does.inside
  · intro c living
    rcases (does.alive threads idle c).mp living with older | rfl
    · obtain ⟨first,second⟩ := threads.alive c older
      have other : s.slot c ≠ pid := by rintro same; rw [same,does.free] at second; contradiction
      rw [does.slot c older.2.1,does.occupant _ other,does.table _ other]
      exact ⟨first,second⟩
    · rw [does.placed]; exact ⟨does.taken,does.here⟩
  · intro p inside used
    by_cases same : p = pid
    · rw [same,does.taken,does.placed]; exact ⟨threads.born.1,rfl⟩
    · rw [does.table p same] at used
      rw [does.occupant p same,does.slot _ (old p)]
      exact threads.occupied p inside used
  · exact fun c positive small => does.spawners threads positive small
  · intro c positive small
    rcases does.older small with earlier | rfl
    · rw [does.spawner c earlier,does.slot c earlier,
        does.slot _ (threads.spawners c positive earlier).1]
      exact threads.apart c positive earlier
    · rw [does.creator,does.placed,does.slot who does.lives]
      by_cases startup : who = 0
      · rw [startup,threads.startup]; have := does.inside.1; omega
      · exact does.apart (threads.idle_ready idle (by omega))
  · exact fun w q spawning => does.spawning threads idle spawning
  · intro c positive live
    rw [does.rest.1]
    by_cases same : c = who
    · exact threads.built c positive (by simp [same,idle])
    · rw [does.phase c same] at live; exact threads.built c positive live
  · intro w q counting
    by_cases same : w = who
    · rw [same,does.mine] at counting; simp at counting
    · rw [does.phase w same] at counting
      have spawning : (s.threads w).spawns = some q := by
        rcases counting with h | h <;> simp [h,Phase.spawns]
      have other := does.unspawned threads spawning
      rw [does.rest.1,does.occupant q other]
      exact threads.counted w q counting
  · intro c late
    rw [does.next] at late
    rw [does.rest.1]
    exact threads.unbuilt c (by omega)
  · intro c positive small raw
    rw [does.rest.1] at raw
    rcases does.older small with earlier | rfl
    · obtain ⟨other,at_⟩ := threads.setup c positive earlier raw
      refine ⟨other,?_⟩
      rw [does.spawner c earlier,does.slot c earlier,
        does.phase _ (by rintro same; rw [same,idle] at at_; contradiction)]
      exact at_
    · exact ⟨executable,by rw [does.creator,does.placed,does.mine]⟩

theorem Waiters.allocated (waiters : Waiters s) (threads : Threads s)
    (does : Allocates who pid executable s t) (idle : s.threads who = .idle) : Waiters t := by
  refine ⟨?_,?_,by rw [does.rest.2.1]; exact waiters.once⟩
  · intro w q joining
    have same : w ≠ who := by rintro rfl; simp [does.mine,Phase.joins] at joining
    rw [does.phase w same] at joining
    obtain ⟨made,spawned,unjoined⟩ := waiters.joining w q joining
    rw [does.occupant q (does.apart made),does.spawner _ (threads.occupants q),does.joined]
    exact ⟨(does.ready threads q).mpr made,spawned,unjoined⟩
  · intro q w member
    rw [does.rest.2.1] at member
    have sleeping := waiters.queue q w member
    rw [does.phase w (by rintro rfl; simp [idle] at sleeping)]
    exact sleeping

theorem Threads.spawner_lt (threads : Threads s) (made : Ready s p) :
    s.spawner (s.occupant p) < s.next :=
  (threads.spawners _ (threads.occupied p made.1 made.2.1).1 (threads.occupants p)).1

theorem Entries.allocated (entries : Entries s) (threads : Threads s)
    (does : Allocates who pid executable s t) (idle : s.threads who = .idle) : Entries t := by
  have ready := does.ready threads
  have old := threads.occupants
  refine ⟨?_,?_,?_,?_⟩
  · intro p again unjoined
    have made := (ready p).mp again
    rw [does.joined,does.occupant p (does.apart made)] at unjoined
    rw [does.occupant p (does.apart made),does.spawner _ (old p),does.slot _ (threads.spawner_lt made),
      does.table p (does.apart made)]
    exact entries.parent p made unjoined
  · intro p again joined
    have made := (ready p).mp again
    rw [does.joined,does.occupant p (does.apart made)] at joined
    rw [does.table p (does.apart made)]
    exact entries.joined p made joined
  · intro p again zombie unjoined
    have made := (ready p).mp again
    rw [does.joined,does.occupant p (does.apart made)] at unjoined
    rw [does.table p (does.apart made)] at zombie ⊢
    rw [does.occupant p (does.apart made),does.rest.2.2.1]
    exact entries.retval p made zombie unjoined
  · intro c positive small present unjoined
    rw [does.joined] at unjoined
    rcases does.older small with earlier | rfl
    · rw [does.spawner c earlier] at present
      have present : Present s (s.spawner c) := by
        rcases present with startup | living
        · exact .inl startup
        · rcases (does.alive threads idle _).mp living with old | new
          · exact .inr old
          · have := (threads.spawners c positive earlier).1; omega
      obtain ⟨first,second⟩ := entries.kept c positive earlier present unjoined
      have other : s.slot c ≠ pid := by rintro same; exact second (same ▸ does.free)
      rw [does.slot c earlier,does.occupant _ other,does.table _ other]
      exact ⟨first,second⟩
    · rw [does.placed]
      exact ⟨does.taken,by rw [does.here]; simp⟩

theorem Lists.allocated (list : Lists s lists) (threads : Threads s)
    (does : Allocates who pid executable s t) (idle : s.threads who = .idle) : Lists t lists := by
  have ready := does.ready threads
  have old := threads.occupants
  refine ⟨?_,?_,list.disjoint,fun p made => list.ready p ((ready p).mp made),?_,?_,?_,?_,list.inside⟩
  · simpa only [does.links] using list.chain
  · intro q items at_ z member
    obtain ⟨made,zombie,process,other⟩ := list.members q items at_ z member
    rw [does.table z (does.apart made),does.occupant z (does.apart made),does.spawner _ (old z)]
    exact ⟨(ready z).mpr made,zombie,process,other⟩
  · intro c positive small process
    rcases does.older small with earlier | rfl
    · rw [does.spawner c earlier] at process ⊢
      rw [does.slot _ (threads.spawners c positive earlier).1]
      exact list.parents c positive earlier process
    · rw [does.creator] at process ⊢
      rw [does.slot who does.lives]
      exact list.ready _ (threads.idle_ready idle (by omega))
  · intro p again zombie living
    have made := (ready p).mp again
    rw [does.occupant p (does.apart made),does.spawner _ (old p)] at living ⊢
    rw [does.table p (does.apart made)] at zombie
    rw [does.slot _ (threads.spawner_lt made)]
    refine list.mine p made zombie ?_
    rcases (does.alive threads idle _).mp living with old | new
    · exact old
    · have := threads.spawner_lt made; omega
  · intro p again quiet
    have made := (ready p).mp again
    rw [does.occupant p (does.apart made),does.spawner _ (old p),does.table p (does.apart made)] at quiet
    rw [(does.links p).2.2]
    exact list.lonely p made quiet
  · intro p again startup
    have made := (ready p).mp again
    rw [does.occupant p (does.apart made),does.spawner _ (old p)] at startup
    rw [(does.links p).2.1]
    exact list.single p made startup

theorem Log.allocated (log : Log s) (does : Allocates who pid executable s t)
    (idle : s.threads who = .idle) : Log t := by
  have other : ∀ c, s.threads c = .finished → t.threads c = .finished := by
    intro c finished
    rw [does.phase c (by rintro rfl; simp [idle] at finished)]
    exact finished
  refine ⟨?_,by rw [does.rest.2.2.2]; exact log.once,?_,?_⟩
  · intro j member
    rw [does.rest.2.2.2] at member
    obtain ⟨-,small,-⟩ := log.past j member
    rw [does.spawner _ small,does.slot _ small,does.rest.2.2.1]
    exact log.sound j member
  · intro j member
    rw [does.rest.2.2.2] at member
    obtain ⟨positive,small,finished⟩ := log.past j member
    exact ⟨positive,by rw [does.next]; omega,other _ finished⟩
  · intro j member startup
    rw [does.rest.2.2.2] at member
    exact other 0 (log.startup j member startup)

theorem Sound.allocated (sound : Sound s) (does : Allocates who pid executable s t)
    (idle : s.threads who = .idle) : Sound t := by
  obtain ⟨threads,waiters,entries,⟨lists,list⟩,log⟩ := sound
  exact ⟨threads.allocated does idle,waiters.allocated threads does idle,
    entries.allocated threads does idle,⟨lists,list.allocated threads does idle⟩,log.allocated does idle⟩

end Allocation

/-- What the initialisation does: the entry of the new process is filled in. -/
structure Initialises (who : Nat) (pid : Int) (executable : List UInt8) (s t : Processes) : Prop where
  before : s.threads who = .allocated pid executable
  table : ∀ p, p ≠ pid → t.table p = s.table p
  here : t.table pid = (s.table pid).spawned executable (s.slot who)
  phase : ∀ w, t.threads w = if w = who then .counting pid else s.threads w
  built : ∀ c, t.built c = if c = s.occupant pid then true else s.built c
  next : t.next = s.next
  occupant : t.occupant = s.occupant
  slot : t.slot = s.slot
  spawner : t.spawner = s.spawner
  rest : t.waiting = s.waiting ∧ t.passed = s.passed ∧ t.joins = s.joins

theorem spawnInit_initialises (before : s.threads who = .allocated pid executable) :
    Initialises who pid executable s (spawnInit who pid executable s) := by
  refine ⟨before,?_,?_,fun w => goto_threads _ who w _,?_,rfl,rfl,rfl,rfl,⟨rfl,rfl,rfl⟩⟩
  · intro p apart; simp [spawnInit,Processes.goto,apart]
  · simp [spawnInit,Processes.goto]
  · intro c
    by_cases same : c = s.occupant pid <;> simp [spawnInit,same]

section Initialisation
variable {t : Processes} {who : Nat} {pid : Int} {executable : List UInt8}

theorem Initialises.spawning (does : Initialises who pid executable s t) :
    (s.threads who).spawns = some pid := by
  simp [does.before,Phase.spawns]

theorem Initialises.state (does : Initialises who pid executable s t) (p : Int) :
    (t.table p).state = (s.table p).state := by
  by_cases same : p = pid
  · rw [same,does.here]; rfl
  · rw [does.table p same]

theorem Initialises.joined (does : Initialises who pid executable s t) (c : Nat) :
    WasJoined t c ↔ WasJoined s c := by
  unfold WasJoined
  rw [does.rest.2.2]

theorem Initialises.alive (does : Initialises who pid executable s t) (c : Nat) :
    Alive t c ↔ Alive s c := by
  unfold Alive
  rw [does.phase,does.next]
  split
  · next same => simp [same,does.before]
  · rfl

theorem Initialises.ready (does : Initialises who pid executable s t) (threads : Threads s) (p : Int) :
    Ready t p ↔ Ready s p ∨ p = pid := by
  obtain ⟨inside,-,slot,-,-⟩ := threads.spawning who pid does.spawning
  have running := threads.spawning_running does.spawning
  unfold Ready
  rw [does.state,does.occupant,does.built]
  by_cases same : p = pid
  · subst same
    simp [inside,running]
  · constructor
    · rintro ⟨within,used,made⟩
      have other : s.occupant p ≠ s.occupant pid := by
        intro equal
        have := (threads.occupied p within used).2
        rw [equal,slot] at this
        exact same this.symm
      rw [if_neg other] at made
      exact .inl ⟨within,used,made⟩
    · rintro (⟨within,used,made⟩ | here)
      · exact ⟨within,used,by split <;> simp [made]⟩
      · exact absurd here same

theorem Initialises.unjoined (does : Initialises who pid executable s t) (threads : Threads s)
    (log : Log s) : ¬WasJoined s (s.occupant pid) := by
  obtain ⟨-,-,-,-,absent⟩ := threads.spawning who pid does.spawning
  exact log.unfinished (by simp [absent])

theorem Initialises.childless (does : Initialises who pid executable s t) (threads : Threads s)
    (made : Ready s p) : s.spawner (s.occupant p) ≠ s.occupant pid := by
  obtain ⟨-,-,-,-,absent⟩ := threads.spawning who pid does.spawning
  intro same
  have := (threads.spawners _ (threads.occupied p made.1 made.2.1).1 (threads.occupants p)).2
  rw [same] at this
  exact this absent

theorem Threads.initialised (threads : Threads s) (does : Initialises who pid executable s t) : Threads t := by
  have lives := threads.born_lt (c := who) (by simp [does.before])
  refine ⟨?_,⟨by rw [does.next]; exact threads.born.1,?_⟩,?_,?_,?_,?_,?_,?_,?_,?_,?_,?_,?_,?_⟩
  · rw [does.slot,threads.startup]
  · rw [does.phase]
    split
    · simp
    · exact threads.born.2
  · intro c late
    rw [does.next] at late
    rw [does.phase,if_neg (by rintro rfl; omega)]
    exact threads.unborn c late
  · rw [does.occupant,does.next]; exact threads.occupants
  · rw [does.next,does.slot]; exact threads.slots
  · intro c living
    rw [does.slot,does.occupant,does.state]
    exact threads.alive c ((does.alive c).mp living)
  · intro p within used
    rw [does.state] at used
    rw [does.slot,does.occupant]
    exact threads.occupied p within used
  · intro c first second
    rw [does.next] at second ⊢
    rw [does.spawner,does.phase]
    obtain ⟨small,live⟩ := threads.spawners c first second
    refine ⟨small,?_⟩
    split
    · simp
    · exact live
  · rw [does.next,does.slot,does.spawner]; exact threads.apart
  · intro w q spawning
    rw [does.phase] at spawning
    have still : (s.threads w).spawns = some q := by
      split at spawning
      · next same => rw [same,does.spawning]; exact spawning
      · exact spawning
    rw [does.occupant,does.slot,does.spawner,does.phase]
    obtain ⟨within,first,second,third,fourth⟩ := threads.spawning w q still
    refine ⟨within,first,second,third,?_⟩
    rw [if_neg (by rintro same; rw [same,does.before] at fourth; contradiction)]
    exact fourth
  · intro c first live
    rw [does.phase] at live
    rw [does.built]
    split
    · rfl
    · split at live
      · next same => exact threads.built c first (by simp [same,does.before])
      · exact threads.built c first live
  · intro w q counting
    rw [does.phase] at counting
    rw [does.built,does.occupant]
    split
    · rfl
    · next new =>
      split at counting
      · have : pid = q := by simpa using counting
        exact absurd (congrArg s.occupant this.symm) new
      · exact threads.counted w q counting
  · intro c late
    rw [does.next] at late
    have := threads.occupants pid
    rw [does.built,if_neg (by omega)]
    exact threads.unbuilt c late
  · intro c first second raw
    rw [does.next] at second
    rw [does.built] at raw
    split at raw
    · contradiction
    next apart =>
    obtain ⟨other,there⟩ := threads.setup c first second raw
    refine ⟨other,?_⟩
    rw [does.phase,does.spawner,does.slot]
    refine (if_neg fun same => apart ?_).trans there
    rw [same,does.before] at there
    have own : s.slot c = pid := (Phase.allocated.inj there).1.symm
    have := (threads.alive c ⟨first,second,fun finished => ?_⟩).1
    · rw [own] at this; exact this.symm
    · have := threads.built c first (by simp [finished])
      rw [raw] at this
      contradiction

theorem Waiters.initialised (waiters : Waiters s) (threads : Threads s)
    (does : Initialises who pid executable s t) : Waiters t := by
  refine ⟨?_,?_,by rw [does.rest.1]; exact waiters.once⟩
  · intro w q joining
    rw [does.phase] at joining
    rw [does.spawner,does.occupant,does.joined]
    split at joining
    · simp [Phase.joins] at joining
    · exact (waiters.joining w q joining).imp_left fun made => (does.ready threads q).mpr (.inl made)
  · intro q w member
    rw [does.rest.1] at member
    have sleeping := waiters.queue q w member
    rw [does.phase,if_neg (by rintro rfl; simp [does.before] at sleeping)]
    exact sleeping

theorem Entries.initialised (entries : Entries s) (threads : Threads s) (log : Log s)
    (does : Initialises who pid executable s t) : Entries t := by
  obtain ⟨-,-,-,mine,-⟩ := threads.spawning who pid does.spawning
  have running := threads.spawning_running does.spawning
  have ready := does.ready threads
  refine ⟨?_,?_,?_,?_⟩
  · intro p made unjoined
    rw [does.joined,does.occupant] at unjoined
    rw [does.slot,does.spawner,does.occupant]
    by_cases same : p = pid
    · rw [same,does.here,mine]; rfl
    · rw [does.table p same]
      exact entries.parent p (((ready p).mp made).resolve_right same) unjoined
  · intro p made joined
    rw [does.joined,does.occupant] at joined
    have same : p ≠ pid := by rintro rfl; exact does.unjoined threads log joined
    rw [does.table p same]
    exact entries.joined p (((ready p).mp made).resolve_right same) joined
  · intro p made zombie unjoined
    rw [does.joined,does.occupant] at unjoined
    have same : p ≠ pid := by rintro rfl; rw [does.state,running] at zombie; contradiction
    rw [does.table p same] at zombie ⊢
    rw [does.occupant,does.rest.2.1]
    exact entries.retval p (((ready p).mp made).resolve_right same) zombie unjoined
  · intro c first second present unjoined
    rw [does.next] at second
    rw [does.spawner] at present
    rw [does.joined] at unjoined
    rw [does.slot,does.occupant,does.state]
    exact entries.kept c first second (present.imp_right (does.alive _).mp) unjoined

theorem Lists.initialised (list : Lists s lists) (threads : Threads s)
    (does : Initialises who pid executable s t) : Lists t (Function.update lists pid (some [])) := by
  obtain ⟨inside,-,-,-,-⟩ := threads.spawning who pid does.spawning
  have running := threads.spawning_running does.spawning
  have ready := does.ready threads
  refine ⟨?_,?_,?_,?_,?_,?_,?_,?_,?_⟩
  · intro r others given
    rcases update_some given with ⟨rfl,rfl⟩ | ⟨different,old⟩
    · rw [does.here]
      exact ⟨rfl,trivial⟩
    · obtain ⟨chain,back⟩ := list.chain r others old
      rw [does.table r different]
      refine ⟨chain.congr fun p member => ?_,back.congr fun p member => ?_⟩ <;>
      · have : p ≠ pid := fun same => list.unlisted running old (same ▸ member)
        rw [does.table p this]
  · intro r others given z member
    rw [does.spawner,does.occupant,does.state]
    rcases update_some given with ⟨rfl,rfl⟩ | ⟨different,old⟩
    · simp at member
    · exact (list.members r others old z member).imp_left fun made => (ready z).mpr (.inl made)
  · intro r r' others others' z given given' member member'
    rcases update_some given with ⟨rfl,rfl⟩ | ⟨different,old⟩
    · simp at member
    rcases update_some given' with ⟨rfl,rfl⟩ | ⟨different',old'⟩
    · simp at member'
    exact list.disjoint r r' others others' z old old' member member'
  · intro p made
    rcases (ready p).mp made with old | rfl
    · exact update_known (list.ready p old) pid []
    · simp
  · intro c first second process
    rw [does.next] at second
    rw [does.spawner] at process ⊢
    rw [does.slot]
    exact update_known (list.parents c first second process) pid []
  · intro p again zombie living
    rw [does.alive,does.spawner,does.occupant] at living
    rw [does.slot,does.spawner,does.occupant]
    have same : p ≠ pid := by rintro rfl; rw [does.state,running] at zombie; contradiction
    have made := ((ready p).mp again).resolve_right same
    rw [does.state] at zombie
    obtain ⟨items,listed,member⟩ := list.mine p made zombie living
    refine ⟨items,?_,member⟩
    have different : s.slot (s.spawner (s.occupant p)) ≠ pid := by
      intro there
      have own := (threads.alive _ living).1
      rw [there] at own
      exact does.childless threads made own.symm
    rw [Function.update_of_ne different]
    exact listed
  · intro p made quiet
    rw [does.spawner,does.occupant] at quiet
    by_cases same : p = pid
    · rw [same,does.here]; rfl
    · rw [does.table p same] at quiet ⊢
      exact list.lonely p (((ready p).mp made).resolve_right same) quiet
  · intro p made startup
    rw [does.spawner,does.occupant] at startup
    by_cases same : p = pid
    · rw [same,does.here]; rfl
    · rw [does.table p same]
      exact list.single p (((ready p).mp made).resolve_right same) startup
  · intro r old
    by_cases same : r = pid
    · rw [same]; exact inside
    · exact list.inside r (by simpa [same] using old)

theorem Log.initialised (log : Log s) (does : Initialises who pid executable s t) : Log t := by
  have other : ∀ c, s.threads c = .finished → t.threads c = .finished := by
    intro c finished
    rw [does.phase,if_neg (by rintro rfl; simp [does.before] at finished)]
    exact finished
  refine ⟨?_,by rw [does.rest.2.2]; exact log.once,?_,?_⟩
  · rw [does.rest.2.2,does.rest.2.1,does.spawner,does.slot]; exact log.sound
  · intro j member
    rw [does.rest.2.2] at member
    rw [does.next]
    obtain ⟨first,second,finished⟩ := log.past j member
    exact ⟨first,second,other _ finished⟩
  · intro j member startup
    rw [does.rest.2.2] at member
    exact other 0 (log.startup j member startup)

theorem Sound.initialised (sound : Sound s) (does : Initialises who pid executable s t) : Sound t := by
  obtain ⟨threads,waiters,entries,⟨lists,list⟩,log⟩ := sound
  exact ⟨threads.initialised does,waiters.initialised threads does,entries.initialised threads log does,
    ⟨_,list.initialised threads does⟩,log.initialised does⟩

end Initialisation

theorem Sound.count (sound : Sound s) (at_ : s.threads who = .counting pid) : Sound (spawnCount who pid s) := by
  have threads := sound.threads
  have spawning : (s.threads who).spawns = some pid := by simp [at_,Phase.spawns]
  obtain ⟨inside,positive,slot,mine,absent⟩ := threads.spawning who pid spawning
  have apart : s.occupant pid ≠ who := by rintro same; simp [same,at_] at absent
  have first : Sound (s.goto who (.starting pid)) := by
    refine sound.goto (threads.born_lt (by simp [at_])) (by simp [at_]) (by simp [at_]) (by simp)
      (fun process => threads.built who process (by simp [at_])) ?_ ?_ ?_ (by simp [Phase.joins]) ?_
    · intro w q _ spawning same
      have := (threads.spawning w q spawning).2.2.2.2
      simp [same,at_] at this
    · intro q same
      obtain rfl : pid = q := by simpa [Phase.spawns] using same
      exact ⟨inside,positive,slot,mine,absent,apart⟩
    · rintro q (same | same)
      · contradiction
      · obtain rfl : pid = q := by simpa using same
        exact threads.counted who pid (.inl at_)
    · intro q member
      have := sound.waiters.queue q who member
      simp [at_] at this
  unfold spawnCount
  dsimp only
  split
  · exact first.children _ fun n => n + 1
  · exact first

theorem Sound.start (sound : Sound s) (at_ : s.threads who = .starting pid) : Sound (spawnStart who pid s) := by
  have threads := sound.threads
  obtain ⟨inside,positive,slot,mine,absent⟩ := threads.spawning who pid (by simp [at_,Phase.spawns])
  have apart : s.occupant pid ≠ who := by rintro same; simp [same,at_] at absent
  have first : Sound (s.goto who .idle) :=
    sound.goto_plain (by simp [at_]) (by simp [at_]) (by simp [at_]) (by simp [at_]) (by simp) rfl rfl
  have still : (s.goto who .idle).threads (s.occupant pid) = .absent := by
    rwa [goto_threads,if_neg apart]
  refine first.goto (threads.occupants pid) (by simp [still]) (by simp [still]) (by simp)
    (fun _ => threads.counted who pid (.inr at_)) ?_ (by simp [Phase.spawns]) (by simp)
    (by simp [Phase.joins]) ?_
  · intro w q _ spawning same
    have other := (first.threads.spawning w q spawning).2.2.2.1
    change s.spawner (s.occupant q) = w at other
    rw [show s.occupant q = s.occupant pid from same,mine] at other
    subst other
    simp [goto_threads,Phase.spawns] at spawning
  · intro q member
    have := sound.waiters.queue q _ member
    simp [absent] at this

end Steps

end Buenos.Proc
