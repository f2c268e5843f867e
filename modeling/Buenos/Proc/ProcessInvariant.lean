import Buenos.Foundation.Chain
import Buenos.Proc.Process

/-! An invariant of the process table that every history of spawns and finishes keeps, also
those that leave entries with the parent field of a dead process. Joins keep it as long as
they do not pass their check on such an entry. -/
namespace Buenos.Proc

open Buenos.Foundation

def InTable (p : Int) : Prop := 0 ≤ p ∧ p < processMaxProcesses

instance (p : Int) : Decidable (InTable p) := inferInstanceAs (Decidable (_ ∧ _))

/-- The process exists and has not finished. -/
def Alive (s : Processes) (c : Nat) : Prop := 0 < c ∧ c < s.next ∧ s.threads c ≠ .finished

/-- Alive, or the startup thread. -/
def Present (s : Processes) (c : Nat) : Prop := c = 0 ∨ Alive s c

def WasJoined (s : Processes) (c : Nat) : Prop := c ∈ s.joins.map Joined.child

def Ready (s : Processes) (p : Int) : Prop :=
  InTable p ∧ (s.table p).state ≠ .free ∧ s.built (s.occupant p) = true

def Phase.spawns : Phase → Option Int
  | .allocated pid _ | .counting pid | .starting pid => some pid
  | _ => none

def Phase.joins : Phase → Option Int
  | .entering pid | .sleeping pid => some pid
  | _ => none

structure Threads (s : Processes) : Prop where
  startup : s.slot 0 = -1
  born : 0 < s.next ∧ s.threads 0 ≠ .absent
  unborn : ∀ c, s.next ≤ c → s.threads c = .absent
  occupants : ∀ p, s.occupant p < s.next
  slots : ∀ c, 0 < c → c < s.next → InTable (s.slot c)
  alive : ∀ c, Alive s c → s.occupant (s.slot c) = c ∧ (s.table (s.slot c)).state = .running
  occupied : ∀ p, InTable p → (s.table p).state ≠ .free →
    0 < s.occupant p ∧ s.slot (s.occupant p) = p
  spawners : ∀ c, 0 < c → c < s.next → s.spawner c < s.next ∧ s.threads (s.spawner c) ≠ .absent
  apart : ∀ c, 0 < c → c < s.next → s.slot (s.spawner c) ≠ s.slot c
  spawning : ∀ who pid, (s.threads who).spawns = some pid → InTable pid ∧
    0 < s.occupant pid ∧ s.slot (s.occupant pid) = pid ∧
    s.spawner (s.occupant pid) = who ∧ s.threads (s.occupant pid) = .absent
  built : ∀ c, 0 < c → s.threads c ≠ .absent → s.built c = true
  counted : ∀ who pid, s.threads who = .counting pid ∨ s.threads who = .starting pid →
    s.built (s.occupant pid) = true
  unbuilt : ∀ c, s.next ≤ c → s.built c = false
  setup : ∀ c, 0 < c → c < s.next → s.built c = false →
    ∃ executable, s.threads (s.spawner c) = .allocated (s.slot c) executable

structure Waiters (s : Processes) : Prop where
  joining : ∀ who pid, (s.threads who).joins = some pid →
    Ready s pid ∧ s.spawner (s.occupant pid) = who ∧ ¬WasJoined s (s.occupant pid)
  queue : ∀ pid, ∀ who ∈ s.waiting pid, s.threads who = .sleeping pid
  once : ∀ pid, (s.waiting pid).Nodup

structure Entries (s : Processes) : Prop where
  parent : ∀ p, Ready s p → ¬WasJoined s (s.occupant p) →
    (s.table p).parent = s.slot (s.spawner (s.occupant p))
  joined : ∀ p, Ready s p → WasJoined s (s.occupant p) →
    (s.table p).parent = -1 ∧ (s.table p).state = .zombie
  retval : ∀ p, Ready s p → (s.table p).state = .zombie → ¬WasJoined s (s.occupant p) →
    ∃ v, s.passed (s.occupant p) = some v ∧ (s.table p).retval = max v 0
  kept : ∀ c, 0 < c → c < s.next → Present s (s.spawner c) → ¬WasJoined s c →
    s.occupant (s.slot c) = c ∧ (s.table (s.slot c)).state ≠ .free

/-- The list of zombies from each entry; `none` for an entry that was never initialised. -/
structure Lists (s : Processes) (lists : Int → Option (List Int)) : Prop where
  chain : ∀ q items, lists q = some items →
    Chain (fun p => (s.table p).nextZombie) (-1) (s.table q).firstZombie items ∧
    Back (fun p => (s.table p).prevZombie) (-1) items
  members : ∀ q items, lists q = some items → ∀ z ∈ items,
    Ready s z ∧ (s.table z).state = .zombie ∧ s.spawner (s.occupant z) ≠ 0 ∧ z ≠ q
  disjoint : ∀ q r items others z, lists q = some items → lists r = some others →
    z ∈ items → z ∈ others → q = r
  ready : ∀ p, Ready s p → lists p ≠ none
  parents : ∀ c, 0 < c → c < s.next → s.spawner c ≠ 0 → lists (s.slot (s.spawner c)) ≠ none
  mine : ∀ p, Ready s p → (s.table p).state = .zombie → Alive s (s.spawner (s.occupant p)) →
    ∃ items, lists (s.slot (s.spawner (s.occupant p))) = some items ∧ p ∈ items
  lonely : ∀ p, Ready s p → (s.table p).state = .running ∨ s.spawner (s.occupant p) = 0 →
    (s.table p).prevZombie = -1
  single : ∀ p, Ready s p → s.spawner (s.occupant p) = 0 → (s.table p).nextZombie = -1
  inside : ∀ q, lists q ≠ none → InTable q

structure Log (s : Processes) : Prop where
  sound : ∀ j ∈ s.joins, s.spawner j.child = j.caller ∧ s.slot j.child = j.pid ∧
    ∃ v, s.passed j.child = some v ∧ j.result = max v 0
  once : (s.joins.map Joined.child).Nodup
  past : ∀ j ∈ s.joins, 0 < j.child ∧ j.child < s.next ∧ s.threads j.child = .finished
  startup : ∀ j ∈ s.joins, j.caller = 0 → s.threads 0 = .finished

structure Sound (s : Processes) : Prop where
  threads : Threads s
  waiters : Waiters s
  entries : Entries s
  lists : ∃ lists, Lists s lists
  log : Log s

theorem initial_sound (memory : Int → Entry) : Sound (initial memory) := by
  have free : ∀ p, InTable p → ((initial memory).table p).state = .free := by
    intro p inside
    have inside : 0 ≤ p ∧ p < processMaxProcesses := inside
    simp [initial,inside]
  have unready : ∀ p, ¬Ready (initial memory) p := fun p ready => ready.2.1 (free p ready.1)
  have nobody : ∀ c, ¬(0 < c ∧ c < (initial memory).next) := by
    rintro c ⟨first,second⟩
    simp only [initial] at second
    omega
  have idle : ∀ who, (initial memory).threads who = .idle ∨ (initial memory).threads who = .absent := by
    intro who
    by_cases h : who = 0 <;> simp [initial,h]
  refine ⟨?_,?_,?_,⟨fun _ => none,?_⟩,?_⟩
  · constructor
    · rfl
    · simp [initial]
    · intro c h
      have : c ≠ 0 := by rintro rfl; simp [initial] at h
      simp [initial,this]
    · simp [initial]
    · intro c first second; exact absurd ⟨first,second⟩ (nobody c)
    · intro c alive; exact absurd ⟨alive.1,alive.2.1⟩ (nobody c)
    · intro p inside used; exact absurd (free p inside) used
    · intro c first second; exact absurd ⟨first,second⟩ (nobody c)
    · intro c first second; exact absurd ⟨first,second⟩ (nobody c)
    · intro who pid h; rcases idle who with h' | h' <;> simp [h',Phase.spawns] at h
    · intro c first h
      have : c ≠ 0 := by omega
      simp [initial,this] at h
    · intro who pid h; rcases idle who with h' | h' <;> simp [h'] at h
    · intro c _; rfl
    · intro c first second; exact absurd ⟨first,second⟩ (nobody c)
  · constructor
    · intro who pid h; rcases idle who with h' | h' <;> simp [h',Phase.joins] at h
    · simp [initial]
    · simp [initial]
  · constructor
    · intro p ready; exact absurd ready (unready p)
    · intro p ready; exact absurd ready (unready p)
    · intro p ready; exact absurd ready (unready p)
    · intro c first second; exact absurd ⟨first,second⟩ (nobody c)
  · constructor
    · simp
    · simp
    · simp
    · intro p ready; exact absurd ready (unready p)
    · intro c first second; exact absurd ⟨first,second⟩ (nobody c)
    · intro p ready; exact absurd ready (unready p)
    · intro p ready; exact absurd ready (unready p)
    · intro p ready; exact absurd ready (unready p)
    · simp
  · constructor <;> simp [initial]

section Steps
variable {s : Processes}

theorem goto_threads (s : Processes) (who w : Nat) (phase : Phase) :
    (s.goto who phase).threads w = if w = who then phase else s.threads w := by
  by_cases same : w = who <;> simp [Processes.goto,same]

theorem Threads.born_lt (threads : Threads s) (live : s.threads c ≠ .absent) : c < s.next := by
  by_contra late
  exact live (threads.unborn c (by omega))

theorem Log.unfinished (log : Log s) (live : s.threads c ≠ .finished) : ¬WasJoined s c := by
  intro joined
  obtain ⟨j,member,same⟩ := List.mem_map.mp joined
  exact live (same ▸ (log.past j member).2.2)

/-- A process that is running is in no list of zombies. -/
theorem Lists.unlisted (list : Lists s lists) (running : (s.table p).state = .running)
    (at_ : lists r = some others) : p ∉ others := by
  intro member
  have zombie := (list.members r others at_ p member).2.1
  simp [running] at zombie

theorem update_some {lists : Int → Option (List Int)} (given : Function.update lists q (some items) r = some others) :
    (r = q ∧ others = items) ∨ (r ≠ q ∧ lists r = some others) := by
  by_cases same : r = q
  · subst same
    rw [Function.update_self] at given
    exact .inl ⟨rfl,(Option.some.inj given).symm⟩
  · rw [Function.update_of_ne same] at given
    exact .inr ⟨same,given⟩

theorem update_known {lists : Int → Option (List Int)} (known : lists r ≠ none) (q : Int) (items : List Int) :
    Function.update lists q (some items) r ≠ none := by
  by_cases same : r = q <;> simp [same,known]

/-! ### Steps that keep the table -/

section Turn
variable (alive : ∀ c, Alive (s.goto who phase) c → Alive s c)
include alive

theorem Threads.goto (threads : Threads s) (lives : who < s.next) (stays : phase ≠ .absent)
    (done : ∀ pid executable, s.threads who ≠ .allocated pid executable) (built : 0 < who → s.built who = true)
    (free : ∀ w pid, w ≠ who → (s.threads w).spawns = some pid → s.occupant pid ≠ who)
    (spawns : ∀ pid, phase.spawns = some pid → InTable pid ∧ 0 < s.occupant pid ∧
      s.slot (s.occupant pid) = pid ∧ s.spawner (s.occupant pid) = who ∧
      s.threads (s.occupant pid) = .absent ∧ s.occupant pid ≠ who)
    (counted : ∀ pid, phase = .counting pid ∨ phase = .starting pid → s.built (s.occupant pid) = true) :
    Threads (s.goto who phase) := by
  have born : ∀ c, s.threads c ≠ .absent → (s.goto who phase).threads c ≠ .absent := by
    intro c live
    rw [goto_threads]
    split
    · exact stays
    · exact live
  constructor
  · exact threads.startup
  · exact ⟨threads.born.1,born 0 threads.born.2⟩
  · intro c late
    rw [goto_threads]
    have : c ≠ who := by rintro rfl; exact absurd lives (by simpa [Processes.goto] using late)
    simpa [this] using threads.unborn c late
  · exact threads.occupants
  · exact threads.slots
  · intro c living; exact threads.alive c (alive c living)
  · exact threads.occupied
  · intro c first second
    obtain ⟨small,live⟩ := threads.spawners c first second
    exact ⟨small,born _ live⟩
  · exact threads.apart
  · intro w pid spawning
    rw [goto_threads] at spawning
    split at spawning
    · next same =>
      obtain ⟨inside,positive,slot,spawner,absent,apart⟩ := spawns pid spawning
      refine ⟨inside,positive,slot,same ▸ spawner,?_⟩
      change (s.goto who phase).threads (s.occupant pid) = .absent
      rwa [goto_threads,if_neg apart]
    · next other =>
      obtain ⟨inside,positive,slot,spawner,absent⟩ := threads.spawning w pid spawning
      refine ⟨inside,positive,slot,spawner,?_⟩
      change (s.goto who phase).threads (s.occupant pid) = .absent
      rwa [goto_threads,if_neg (free w pid other spawning)]
  · intro c positive live
    rw [goto_threads] at live
    split at live
    · next same => subst same; exact built positive
    · exact threads.built c positive live
  · intro w pid counting
    rw [goto_threads] at counting
    split at counting
    · exact counted pid counting
    · exact threads.counted w pid counting
  · exact threads.unbuilt
  · intro c first second raw
    obtain ⟨executable,at_⟩ := threads.setup c first second raw
    refine ⟨executable,?_⟩
    change (s.goto who phase).threads (s.spawner c) = _
    rw [goto_threads,if_neg fun same => done _ _ (same ▸ at_)]
    exact at_

omit alive in
theorem Waiters.goto (waiters : Waiters s)
    (joins : ∀ pid, phase.joins = some pid →
      Ready s pid ∧ s.spawner (s.occupant pid) = who ∧ ¬WasJoined s (s.occupant pid))
    (queued : ∀ pid, who ∈ s.waiting pid → phase = .sleeping pid) : Waiters (s.goto who phase) := by
  constructor
  · intro w pid joining
    rw [goto_threads] at joining
    split at joining
    · next same => subst same; exact joins pid joining
    · exact waiters.joining w pid joining
  · intro pid w member
    rw [goto_threads]
    split
    · next same => subst same; exact queued pid member
    · exact waiters.queue pid w member
  · exact waiters.once

omit alive in
theorem Log.goto (log : Log s) (finished : s.threads who = .finished → phase = .finished) :
    Log (s.goto who phase) := by
  have still : ∀ c, s.threads c = .finished → (s.goto who phase).threads c = .finished := by
    intro c past
    rw [goto_threads]
    split
    · next same => exact finished (same ▸ past)
    · exact past
  refine ⟨log.sound,log.once,?_,fun j member startup => still 0 (log.startup j member startup)⟩
  intro j member
  obtain ⟨positive,small,past⟩ := log.past j member
  exact ⟨positive,small,still j.child past⟩

theorem Entries.goto (entries : Entries s) : Entries (s.goto who phase) :=
  ⟨entries.parent,entries.joined,entries.retval,fun c first second present =>
    entries.kept c first second (present.imp_right (alive _))⟩

theorem Lists.goto (list : Lists s lists) : Lists (s.goto who phase) lists :=
  ⟨list.chain,list.members,list.disjoint,list.ready,list.parents,
    fun p ready zombie living => list.mine p ready zombie (alive _ living),
    list.lonely,list.single,list.inside⟩

end Turn

theorem Sound.goto (sound : Sound s) (lives : who < s.next) (unfinished : s.threads who ≠ .finished)
    (done : ∀ pid executable, s.threads who ≠ .allocated pid executable)
    (stays : phase ≠ .absent ∧ phase ≠ .finished) (built : 0 < who → s.built who = true)
    (free : ∀ w pid, w ≠ who → (s.threads w).spawns = some pid → s.occupant pid ≠ who)
    (spawns : ∀ pid, phase.spawns = some pid → InTable pid ∧ 0 < s.occupant pid ∧
      s.slot (s.occupant pid) = pid ∧ s.spawner (s.occupant pid) = who ∧
      s.threads (s.occupant pid) = .absent ∧ s.occupant pid ≠ who)
    (counted : ∀ pid, phase = .counting pid ∨ phase = .starting pid → s.built (s.occupant pid) = true)
    (joins : ∀ pid, phase.joins = some pid →
      Ready s pid ∧ s.spawner (s.occupant pid) = who ∧ ¬WasJoined s (s.occupant pid))
    (queued : ∀ pid, who ∈ s.waiting pid → phase = .sleeping pid) : Sound (s.goto who phase) := by
  obtain ⟨threads,waiters,entries,⟨lists,list⟩,log⟩ := sound
  have alive : ∀ c, Alive (s.goto who phase) c → Alive s c := by
    intro c living
    unfold Alive at living ⊢
    rw [goto_threads] at living
    split at living
    · next same => exact ⟨living.1,living.2.1,same ▸ unfinished⟩
    · exact living
  exact ⟨threads.goto alive lives stays.1 done built free spawns counted,waiters.goto joins queued,
    entries.goto alive,⟨lists,list.goto alive⟩,log.goto fun finished => absurd finished unfinished⟩

theorem Sound.goto_plain (sound : Sound s) (unfinished : s.threads who ≠ .finished)
    (done : ∀ pid executable, s.threads who ≠ .allocated pid executable)
    (live : s.threads who ≠ .absent) (awake : ∀ pid, s.threads who ≠ .sleeping pid)
    (stays : phase ≠ .absent ∧ phase ≠ .finished) (spawns : phase.spawns = none)
    (joins : phase.joins = none) : Sound (s.goto who phase) := by
  have threads := sound.threads
  refine sound.goto (threads.born_lt live) unfinished done stays (fun positive => threads.built who positive live)
    ?_ (by simp [spawns]) ?_ (by simp [joins]) ?_
  · intro w pid _ spawning same
    exact live (same ▸ (threads.spawning w pid spawning).2.2.2.2)
  · rintro pid (rfl | rfl) <;> simp [Phase.spawns] at spawns
  · intro pid member
    exact absurd (sound.waiters.queue pid who member) (awake pid)

theorem Sound.ended (sound : Sound s) (live : s.threads who ≠ .absent) (awake : ∀ pid, s.threads who ≠ .sleeping pid)
    (done : ∀ pid executable, s.threads who ≠ .allocated pid executable) : Sound (s.goto who .finished) := by
  obtain ⟨threads,waiters,entries,⟨lists,list⟩,log⟩ := sound
  have alive : ∀ c, Alive (s.goto who .finished) c → Alive s c := by
    intro c living
    unfold Alive at living ⊢
    rw [goto_threads] at living
    split at living
    · exact absurd rfl living.2.2
    · exact living
  have free : ∀ w pid, w ≠ who → (s.threads w).spawns = some pid → s.occupant pid ≠ who := by
    intro w pid _ spawning same
    exact live (same ▸ (threads.spawning w pid spawning).2.2.2.2)
  have queued : ∀ pid, who ∈ s.waiting pid → Phase.finished = .sleeping pid := by
    intro pid member
    exact absurd (waiters.queue pid who member) (awake pid)
  exact ⟨threads.goto alive (threads.born_lt live) (by simp) done (fun positive => threads.built who positive live) free
      (by simp [Phase.spawns]) (by simp),waiters.goto (by simp [Phase.joins]) queued,
    entries.goto alive,⟨lists,list.goto alive⟩,log.goto fun _ => rfl⟩

theorem Sound.halt (sound : Sound s) (awake : ∀ pid, s.threads 0 ≠ .sleeping pid)
    (done : ∀ pid executable, s.threads 0 ≠ .allocated pid executable) :
    Sound (s.goto 0 .finished) :=
  sound.ended sound.threads.born.2 awake done

theorem Sound.wake (sound : Sound s) (pid : Int) : Sound (sleepqWake pid s) := by
  unfold sleepqWake
  split
  · exact sound
  next who rest queue =>
  have sleeping := sound.waiters.queue pid who (by simp [queue])
  have fresh : who ∉ rest := by
    have := sound.waiters.once pid
    rw [queue] at this
    exact (List.nodup_cons.mp this).1
  have shorter : ∀ q w, w ∈ Function.update s.waiting pid rest q → w ∈ s.waiting q := by
    intro q w member
    by_cases same : q = pid
    · subst same
      rw [Function.update_self] at member
      simp [queue,member]
    · simpa [same] using member
  have dequeued : Sound { s with waiting := Function.update s.waiting pid rest } := by
    obtain ⟨threads,waiters,entries,⟨lists,list⟩,log⟩ := sound
    refine ⟨⟨threads.startup,threads.born,threads.unborn,threads.occupants,threads.slots,threads.alive,
        threads.occupied,threads.spawners,threads.apart,threads.spawning,threads.built,threads.counted,threads.unbuilt,threads.setup⟩,
      ⟨waiters.joining,fun q w member => waiters.queue q w (shorter q w member),fun q => ?_⟩,
      ⟨entries.parent,entries.joined,entries.retval,entries.kept⟩,
      ⟨lists,list.chain,list.members,list.disjoint,list.ready,list.parents,list.mine,list.lonely,
        list.single,list.inside⟩,⟨log.sound,log.once,log.past,log.startup⟩⟩
    change (Function.update s.waiting pid rest q).Nodup
    by_cases same : q = pid
    · subst same
      have := waiters.once q
      rw [queue] at this
      simpa using (List.nodup_cons.mp this).2
    · simpa [same] using waiters.once q
  refine dequeued.goto (sound.threads.born_lt (by simp [sleeping])) (by simp [sleeping])
    (by simp [sleeping]) (by simp) (fun positive => sound.threads.built who positive (by simp [sleeping])) ?_ (by simp [Phase.spawns])
    (by simp) ?_ ?_
  · intro w q _ spawning same
    have absent := (sound.threads.spawning w q spawning).2.2.2.2
    rw [show s.occupant q = who from same] at absent
    simp [sleeping] at absent
  · intro q joins
    have : pid = q := by simpa [Phase.joins] using joins
    subst this
    exact sound.waiters.joining who pid (by simp [sleeping,Phase.joins])
  · intro q member
    change who ∈ Function.update s.waiting pid rest q at member
    by_cases same : q = pid
    · subst same; simp [fresh] at member
    · have other := sound.waiters.queue q who (by simpa [same] using member)
      rw [sleeping] at other
      cases other
      exact absurd rfl same

theorem Sound.sleep (sound : Sound s) (entering : s.threads who = .entering pid) :
    Sound { s.goto who (.sleeping pid) with
      waiting := Function.update s.waiting pid (s.waiting pid ++ [who]) } := by
  have awake : ∀ q, who ∉ s.waiting q := by
    intro q member
    simp [sound.waiters.queue q who member] at entering
  have asleep : Sound (s.goto who (.sleeping pid)) := by
    refine sound.goto (sound.threads.born_lt (by simp [entering])) (by simp [entering])
      (by simp [entering]) (by simp)
      (fun positive => sound.threads.built who positive (by simp [entering])) ?_ (by simp [Phase.spawns])
      (by simp) ?_ fun q member => absurd member (awake q)
    · intro w q _ spawning same
      have absent := (sound.threads.spawning w q spawning).2.2.2.2
      rw [same,entering] at absent
      contradiction
    · intro q joins
      have : pid = q := by simpa [Phase.joins] using joins
      subst this
      exact sound.waiters.joining who pid (by simp [entering,Phase.joins])
  obtain ⟨threads,waiters,entries,⟨lists,list⟩,log⟩ := asleep
  refine ⟨⟨threads.startup,threads.born,threads.unborn,threads.occupants,threads.slots,threads.alive,
      threads.occupied,threads.spawners,threads.apart,threads.spawning,threads.built,threads.counted,threads.unbuilt,threads.setup⟩,
    ⟨waiters.joining,fun q w member => ?_,fun q => ?_⟩,
    ⟨entries.parent,entries.joined,entries.retval,entries.kept⟩,
    ⟨lists,list.chain,list.members,list.disjoint,list.ready,list.parents,list.mine,list.lonely,
      list.single,list.inside⟩,⟨log.sound,log.once,log.past,log.startup⟩⟩
  · change w ∈ Function.update s.waiting pid (s.waiting pid ++ [who]) q at member
    by_cases same : q = pid
    · subst same
      rw [Function.update_self,List.mem_append,List.mem_singleton] at member
      rcases member with old | rfl
      · exact waiters.queue q w old
      · exact (goto_threads s w w _).trans (if_pos rfl)
    · rw [Function.update_of_ne same] at member
      exact waiters.queue q w member
  · change (Function.update s.waiting pid (s.waiting pid ++ [who]) q).Nodup
    by_cases same : q = pid
    · subst same
      rw [Function.update_self]
      exact (waiters.once q).append (List.nodup_singleton who)
        (List.disjoint_singleton.mpr (awake q))
    · rw [Function.update_of_ne same]
      exact waiters.once q

/-! ### Steps on the table -/

@[simp] theorem modify_table (s : Processes) (p q : Int) (f : Entry → Entry) :
    (s.modify p f).table q = if q = p then f (s.table q) else s.table q := by
  by_cases same : q = p
  · subst same; simp [Processes.modify]
  · simp [Processes.modify,same]

theorem modify_self {f : Entry → Entry} (same : f (s.table p) = s.table p) : s.modify p f = s := by
  unfold Processes.modify
  rw [same,Function.update_eq_self]

/-- Fields of an entry that the invariant does not speak of may change, and the return
value of an entry that nobody is to read. -/
theorem Sound.fields (sound : Sound s) (p : Int) (f : Entry → Entry)
    (state : ∀ e, (f e).state = e.state) (parent : ∀ e, (f e).parent = e.parent)
    (first : ∀ e, (f e).firstZombie = e.firstZombie) (prev : ∀ e, (f e).prevZombie = e.prevZombie)
    (next : ∀ e, (f e).nextZombie = e.nextZombie)
    (retval : Ready s p → (s.table p).state = .zombie → ¬WasJoined s (s.occupant p) →
      (f (s.table p)).retval = (s.table p).retval) : Sound (s.modify p f) := by
  obtain ⟨threads,waiters,entries,⟨lists,list⟩,log⟩ := sound
  have state : ∀ q, ((s.modify p f).table q).state = (s.table q).state := by
    intro q; rw [modify_table]; split <;> simp [state]
  have parent : ∀ q, ((s.modify p f).table q).parent = (s.table q).parent := by
    intro q; rw [modify_table]; split <;> simp [parent]
  have first : ∀ q, ((s.modify p f).table q).firstZombie = (s.table q).firstZombie := by
    intro q; rw [modify_table]; split <;> simp [first]
  have prev : ∀ q, ((s.modify p f).table q).prevZombie = (s.table q).prevZombie := by
    intro q; rw [modify_table]; split <;> simp [prev]
  have next : ∀ q, ((s.modify p f).table q).nextZombie = (s.table q).nextZombie := by
    intro q; rw [modify_table]; split <;> simp [next]
  have ready : ∀ q, Ready (s.modify p f) q ↔ Ready s q := by
    intro q
    unfold Ready
    rw [state]
    rfl
  refine ⟨?_,?_,?_,⟨lists,?_⟩,?_⟩
  · exact ⟨threads.startup,threads.born,threads.unborn,threads.occupants,threads.slots,
      fun c living => (threads.alive c living).imp_right (state _).trans,
      fun q inside used => threads.occupied q inside (by rwa [state] at used),threads.spawners,
      threads.apart,threads.spawning,threads.built,threads.counted,threads.unbuilt,threads.setup⟩
  · exact ⟨fun who pid joining => (waiters.joining who pid joining).imp_left (ready pid).mpr,
      waiters.queue,waiters.once⟩
  · refine ⟨?_,?_,?_,?_⟩
    · intro q at_ unjoined
      exact (parent q).trans (entries.parent q ((ready q).mp at_) unjoined)
    · intro q at_ joined
      obtain ⟨first,second⟩ := entries.joined q ((ready q).mp at_) joined
      exact ⟨(parent q).trans first,(state q).trans second⟩
    · intro q at_ dead unjoined
      have before := (ready q).mp at_
      have zombie := (state q).symm.trans dead
      obtain ⟨v,passed,value⟩ := entries.retval q before zombie unjoined
      refine ⟨v,passed,?_⟩
      rw [modify_table]
      split
      · next same => subst same; rw [retval before zombie unjoined,value]
      · exact value
    · intro c small large present unjoined
      exact (entries.kept c small large present unjoined).imp_right fun used => by rwa [← state] at used
  · refine ⟨?_,?_,list.disjoint,fun q at_ => list.ready q ((ready q).mp at_),list.parents,?_,?_,?_,
      list.inside⟩
    · simpa only [first,prev,next] using list.chain
    · intro q items at_ z member
      obtain ⟨first,second⟩ := list.members q items at_ z member
      exact ⟨(ready z).mpr first,(state z).trans second.1,second.2⟩
    · intro q at_ zombie
      exact list.mine q ((ready q).mp at_) ((state q).symm.trans zombie)
    · intro q at_ quiet
      rw [state] at quiet
      exact (prev q).trans (list.lonely q ((ready q).mp at_) quiet)
    · intro q at_ startup
      exact (next q).trans (list.single q ((ready q).mp at_) startup)
  · exact ⟨log.sound,log.once,log.past,log.startup⟩

theorem Sound.children (sound : Sound s) (p : Int) (n : Int → Int) :
    Sound (s.modify p fun e => { e with children := n e.children }) :=
  sound.fields p _ (fun _ => rfl) (fun _ => rfl) (fun _ => rfl) (fun _ => rfl) (fun _ => rfl)
    fun _ _ _ => rfl

theorem Sound.setRetval (sound : Sound s) (p v : Int)
    (unread : Ready s p → (s.table p).state = .zombie → WasJoined s (s.occupant p)) :
    Sound (s.modify p fun e => { e with retval := v }) :=
  sound.fields p _ (fun _ => rfl) (fun _ => rfl) (fun _ => rfl) (fun _ => rfl) (fun _ => rfl)
    fun ready zombie unjoined => absurd (unread ready zombie) unjoined

theorem Sound.pass (sound : Sound s) (living : Alive s who) (v : Option Int) :
    Sound { s with passed := Function.update s.passed who v } := by
  obtain ⟨threads,waiters,entries,⟨lists,list⟩,log⟩ := sound
  refine ⟨⟨threads.startup,threads.born,threads.unborn,threads.occupants,threads.slots,threads.alive,
      threads.occupied,threads.spawners,threads.apart,threads.spawning,threads.built,threads.counted,threads.unbuilt,threads.setup⟩,
    ⟨waiters.joining,waiters.queue,waiters.once⟩,⟨entries.parent,entries.joined,?_,entries.kept⟩,
    ⟨lists,list.chain,list.members,list.disjoint,list.ready,list.parents,list.mine,list.lonely,list.single,list.inside⟩,
    ⟨?_,log.once,log.past,log.startup⟩⟩
  · intro p ready zombie unjoined
    obtain ⟨value,passed,result⟩ := entries.retval p ready zombie unjoined
    have apart : s.occupant p ≠ who := by
      intro same
      obtain ⟨_,slot⟩ := threads.occupied p ready.1 ready.2.1
      obtain ⟨_,running⟩ := threads.alive who living
      rw [← same,slot,show (s.table p).state = .zombie from zombie] at running
      contradiction
    exact ⟨value,(Function.update_of_ne apart _ _).trans passed,result⟩
  · intro j member
    obtain ⟨spawner,slot,value,passed,result⟩ := log.sound j member
    have apart : j.child ≠ who := by
      rintro rfl
      exact living.2.2 (log.past j member).2.2
    exact ⟨spawner,slot,value,(Function.update_of_ne apart _ _).trans passed,result⟩

theorem Sound.finishing (sound : Sound s) (idle : s.threads who = .idle) (process : 0 < who) (v : Int) :
    Sound { s.goto who .finished with passed := Function.update s.passed who (some v) } := by
  have living : Alive s who := ⟨process,sound.threads.born_lt (by simp [idle]),by simp [idle]⟩
  have passed := sound.pass living (some v)
  exact passed.ended (by simp [idle]) (by simp [idle]) (by simp [idle])

def Vacant (s : Processes) (q : Int) : Prop := ∀ c, Alive s c → s.slot c ≠ q

theorem Lists.orphan (list : Lists s lists) (at_ : lists q = some items) (member : z ∈ items)
    (vacant : Vacant s q) : ¬(Present s (s.spawner (s.occupant z)) ∧ ¬WasJoined s (s.occupant z)) := by
  rintro ⟨present,-⟩
  obtain ⟨ready,zombie,process,-⟩ := list.members q items at_ z member
  rcases present with startup | living
  · exact process startup
  · obtain ⟨others,at',member'⟩ := list.mine z ready zombie living
    exact vacant _ living (list.disjoint _ _ _ _ z at' at_ member' member)

theorem Threads.joiner_present (threads : Threads s) (joining : (s.threads who).joins = some pid) :
    Present s who := by
  by_cases startup : who = 0
  · exact .inl startup
  · refine .inr ⟨by omega,threads.born_lt ?_,?_⟩ <;> intro h <;> simp [h,Phase.joins] at joining

section Freed
variable {table : Int → Entry} {dead : Int → Prop} (gone : ∀ p, dead p → (table p).state = .free)
  (rest : ∀ p, ¬dead p → (table p).state = (s.table p).state ∧
    (table p).parent = (s.table p).parent ∧ (table p).retval = (s.table p).retval)
include gone rest

theorem Ready.unfreed (ready : Ready { s with table := table } p) : Ready s p ∧ ¬dead p := by
  obtain ⟨inside,state,made⟩ := ready
  have lives : ¬dead p := fun h => state (gone p h)
  exact ⟨⟨inside,by rwa [← (rest p lives).1],made⟩,lives⟩

omit gone in
theorem Ready.still (ready : Ready s p) (lives : ¬dead p) : Ready { s with table := table } p := by
  obtain ⟨inside,state,made⟩ := ready
  exact ⟨inside,by rw [← (rest p lives).1] at state; exact state,made⟩

theorem Threads.freed (threads : Threads s) (vacant : ∀ p, dead p → Vacant s p) : Threads { s with table := table } := by
  refine ⟨threads.startup,threads.born,threads.unborn,threads.occupants,threads.slots,?_,?_,
    threads.spawners,threads.apart,threads.spawning,threads.built,threads.counted,threads.unbuilt,threads.setup⟩
  · intro c living
    have lives : ¬dead (s.slot c) := fun h => vacant _ h c living rfl
    exact (threads.alive c living).imp_right (rest _ lives).1.trans
  · intro p inside state
    have lives : ¬dead p := fun h => state (gone p h)
    exact threads.occupied p inside (by rwa [← (rest p lives).1])

omit gone in
theorem Waiters.freed (waiters : Waiters s) (threads : Threads s) (orphans : ∀ p, dead p → Ready s p →
      ¬(Present s (s.spawner (s.occupant p)) ∧ ¬WasJoined s (s.occupant p))) : Waiters { s with table := table } := by
  refine ⟨?_,waiters.queue,waiters.once⟩
  intro who pid joining
  obtain ⟨ready,spawned,unjoined⟩ := waiters.joining who pid joining
  refine ⟨ready.still rest fun h => orphans pid h ready ⟨?_,unjoined⟩,spawned,unjoined⟩
  rw [spawned]
  exact threads.joiner_present joining

theorem Entries.freed (entries : Entries s) (threads : Threads s)
    (orphans : ∀ p, dead p → Ready s p → ¬(Present s (s.spawner (s.occupant p)) ∧ ¬WasJoined s (s.occupant p)))
    (used : ∀ p, dead p → (s.table p).state ≠ .free → s.built (s.occupant p) = true) :
    Entries { s with table := table } := by
  refine ⟨?_,?_,?_,?_⟩
  · intro p ready unjoined
    obtain ⟨before,lives⟩ := ready.unfreed gone rest
    exact (rest p lives).2.1.trans (entries.parent p before unjoined)
  · intro p ready joined
    obtain ⟨before,lives⟩ := ready.unfreed gone rest
    obtain ⟨first,second⟩ := entries.joined p before joined
    exact ⟨(rest p lives).2.1.trans first,(rest p lives).1.trans second⟩
  · intro p ready zombie unjoined
    obtain ⟨before,lives⟩ := ready.unfreed gone rest
    obtain ⟨v,value,result⟩ := entries.retval p before ((rest p lives).1.symm.trans zombie) unjoined
    exact ⟨v,value,(rest p lives).2.2.trans result⟩
  · intro c small large present unjoined
    obtain ⟨mine,state⟩ := entries.kept c small large present unjoined
    have lives : ¬dead (s.slot c) := by
      intro h
      refine orphans _ h ⟨threads.slots c small large,state,used _ h state⟩ ?_
      rw [mine]
      exact ⟨present,unjoined⟩
    exact ⟨mine,by rw [(rest _ lives).1]; exact state⟩

/-- The new lists are parts of the old ones, whole but for the entries that are freed. -/
theorem Lists.freed (list : Lists s lists) {lists' : Int → Option (List Int)}
    (links : ∀ p, (table p).prevZombie = (s.table p).prevZombie ∧ (table p).nextZombie = (s.table p).nextZombie)
    (sub : ∀ q items, lists' q = some items → ∃ whole, lists q = some whole ∧ ∀ z ∈ items, z ∈ whole ∧ ¬dead z)
    (kept : ∀ q, lists q ≠ none → lists' q ≠ none)
    (mine : ∀ q whole, lists q = some whole → ∀ z ∈ whole, ¬dead z → ¬Vacant s q → ∃ items, lists' q = some items ∧ z ∈ items)
    (chain : ∀ q items, lists' q = some items →
      Chain (fun p => (s.table p).nextZombie) (-1) (table q).firstZombie items ∧
      Back (fun p => (s.table p).prevZombie) (-1) items) : Lists { s with table := table } lists' := by
  have prev := fun p => (links p).1
  have next := fun p => (links p).2
  refine ⟨?_,?_,?_,?_,?_,?_,?_,?_,?_⟩
  · simpa only [prev,next] using chain
  · intro q items at_ z member
    obtain ⟨whole,before,inside⟩ := sub q items at_
    obtain ⟨listed,lives⟩ := inside z member
    obtain ⟨made,zombie,process,apart⟩ := list.members q whole before z listed
    exact ⟨made.still rest lives,(rest z lives).1.trans zombie,process,apart⟩
  · intro q r items others z at_ at' member member'
    obtain ⟨whole,before,inside⟩ := sub q items at_
    obtain ⟨whole',before',inside'⟩ := sub r others at'
    exact list.disjoint q r whole whole' z before before' (inside z member).1 (inside' z member').1
  · intro p ready
    exact kept p (list.ready p (ready.unfreed gone rest).1)
  · exact fun c small large process => kept _ (list.parents c small large process)
  · intro p ready zombie living
    obtain ⟨before,lives⟩ := ready.unfreed gone rest
    obtain ⟨whole,listed,member⟩ := list.mine p before ((rest p lives).1.symm.trans zombie) living
    exact mine _ whole listed p member lives fun empty => empty _ living rfl
  · intro p ready quiet
    obtain ⟨before,lives⟩ := ready.unfreed gone rest
    rw [(rest p lives).1] at quiet
    exact (prev p).trans (list.lonely p before quiet)
  · intro p ready startup
    exact (next p).trans (list.single p (ready.unfreed gone rest).1 startup)
  · intro q known
    obtain ⟨items,at_⟩ := Option.ne_none_iff_exists'.mp known
    obtain ⟨whole,before,-⟩ := sub q items at_
    exact list.inside q (by simp [before])

end Freed

/-- Entries are freed that nobody is running in or can still join. -/
theorem Sound.freed (sound : Sound s) {table : Int → Entry} (dead : Int → Prop)
    (links : ∀ p, (table p).prevZombie = (s.table p).prevZombie ∧
      (table p).nextZombie = (s.table p).nextZombie)
    (gone : ∀ p, dead p → (table p).state = .free)
    (rest : ∀ p, ¬dead p → (table p).state = (s.table p).state ∧
      (table p).parent = (s.table p).parent ∧ (table p).retval = (s.table p).retval)
    (vacant : ∀ p, dead p → Vacant s p)
    (orphans : ∀ p, dead p → Ready s p →
      ¬(Present s (s.spawner (s.occupant p)) ∧ ¬WasJoined s (s.occupant p)))
    (used : ∀ p, dead p → (s.table p).state ≠ .free → s.built (s.occupant p) = true)
    (lists : ∀ lists, Lists s lists → ∃ lists' : Int → Option (List Int), (∀ q items, lists' q = some items →
      ∃ whole, lists q = some whole ∧ ∀ z ∈ items, z ∈ whole ∧ ¬dead z) ∧
      (∀ q, lists q ≠ none → lists' q ≠ none) ∧
      (∀ q whole, lists q = some whole → ∀ z ∈ whole, ¬dead z → ¬Vacant s q →
        ∃ items, lists' q = some items ∧ z ∈ items) ∧
      ∀ q items, lists' q = some items →
        Chain (fun p => (s.table p).nextZombie) (-1) (table q).firstZombie items ∧
        Back (fun p => (s.table p).prevZombie) (-1) items) : Sound { s with table := table } := by
  obtain ⟨threads,waiters,entries,⟨old,list⟩,log⟩ := sound
  obtain ⟨new,sub,kept,mine,chain⟩ := lists old list
  exact ⟨threads.freed gone rest vacant,waiters.freed rest threads orphans,entries.freed gone rest threads orphans used,
    ⟨new,list.freed gone rest links sub kept mine chain⟩,⟨log.sound,log.once,log.past,log.startup⟩⟩

end Steps

end Buenos.Proc
