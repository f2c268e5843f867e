import Buenos.Foundation.Count
import Buenos.Proc.ProcessJoin

/-! The structure of the process table: parent links, child counters and zombie lists. Four
kinds of steps of `process_join` and `process_finish` break it; over runs without them it
holds whenever no `process_spawn` is in progress. -/
namespace Buenos.Proc

open Buenos.Foundation

/-- The entry counts as a child of `q`: its spawner has passed the counting. -/
def Child (s : Processes) (q p : Int) : Prop :=
  (s.table p).state ≠ .free ∧ s.built (s.occupant p) = true ∧ (s.table p).parent = q ∧
  s.threads (s.spawner (s.occupant p)) ≠ .counting p

instance (s : Processes) (q p : Int) : Decidable (Child s q p) := by
  unfold Child; infer_instance

def childCount (s : Processes) (q : Int) : Nat := tableSlots.countP fun p => Child s q p

theorem mem_tableSlots (p : Int) : p ∈ tableSlots ↔ InTable p := by
  simp only [tableSlots,List.mem_cons,List.not_mem_nil,or_false,InTable,processMaxProcesses]
  omega

structure Strict (s : Processes) : Prop where
  unjoined : ∀ p, Ready s p → s.spawner (s.occupant p) ≠ 0 → ¬WasJoined s (s.occupant p)
  running : ∀ p, Ready s p → (s.table p).state = .running → Alive s (s.occupant p)
  parents : ∀ p, Ready s p → s.spawner (s.occupant p) ≠ 0 →
    s.occupant (s.slot (s.spawner (s.occupant p))) = s.spawner (s.occupant p) ∧
    (s.table (s.slot (s.spawner (s.occupant p)))).state ≠ .free
  zombies : ∀ p, Ready s p → (s.table p).state = .zombie → s.spawner (s.occupant p) ≠ 0 →
    Alive s (s.spawner (s.occupant p))
  count : ∀ q, Ready s q → (s.table q).children = childCount s q
  raw : ∀ who pid executable, s.threads who = .allocated pid executable →
    s.built (s.occupant pid) = false

section Steps
variable {s t u : Processes}

theorem initial_strict (memory : Int → Entry) : Strict (initial memory) := by
  have unready : ∀ p, ¬Ready (initial memory) p := by
    rintro p ⟨inside,used,-⟩
    have inside : 0 ≤ p ∧ p < processMaxProcesses := inside
    exact used (by simp [initial,inside])
  refine ⟨?_,?_,?_,?_,?_,fun _ _ _ _ => rfl⟩ <;> intro p ready <;> exact absurd ready (unready p)

theorem childCount_congr (same : ∀ p, InTable p → (Child t q p ↔ Child s q p)) :
    childCount t q = childCount s q := by
  refine List.countP_congr fun p member => ?_
  simpa using same p ((mem_tableSlots p).mp member)

theorem childCount_add_one (inside : InTable x) (out : ¬Child s q x) (now : Child t q x)
    (others : ∀ p, InTable p → p ≠ x → (Child t q p ↔ Child s q p)) :
    childCount t q = childCount s q + 1 := by
  refine countP_add_one (x := x) (by decide) ((mem_tableSlots x).mpr inside) (by simpa using out)
    (by simpa using now) fun p member apart => ?_
  simpa using others p ((mem_tableSlots p).mp member) apart

/-- The parent field names the spawner, whether or not the startup thread has joined. -/
theorem Strict.parent (strict : Strict s) (sound : Sound s) (ready : Ready s p) :
    (s.table p).parent = s.slot (s.spawner (s.occupant p)) := by
  by_cases joined : WasJoined s (s.occupant p)
  · have startup : s.spawner (s.occupant p) = 0 := by
      by_contra process
      exact strict.unjoined p ready process joined
    rw [(sound.entries.joined p ready joined).1,startup,sound.threads.startup]
  · exact sound.entries.parent p ready joined

/-- A step that frees the entries in `dead` and changes no record of who spawned whom. -/
structure Thins (dead : Int → Prop) (s t : Processes) : Prop where
  occupant : t.occupant = s.occupant
  slot : t.slot = s.slot
  spawner : t.spawner = s.spawner
  built : t.built = s.built
  counting : ∀ w p, t.threads w = .counting p ↔ s.threads w = .counting p
  allocated : ∀ w p e, t.threads w = .allocated p e → s.threads w = .allocated p e
  freed : ∀ p, dead p → (t.table p).state = .free
  used : ∀ p, ¬dead p → InTable p → ((t.table p).state = .free ↔ (s.table p).state = .free)

/-- The other entries keep their parents. -/
structure Drops (dead : Int → Prop) (s t : Processes) : Prop extends Thins dead s t where
  parent : ∀ p, ¬dead p → InTable p → (t.table p).parent = (s.table p).parent

theorem Thins.ready (drops : Thins dead s t) (p : Int) : Ready t p ↔ Ready s p ∧ ¬dead p := by
  unfold Ready
  rw [drops.built,drops.occupant]
  constructor
  · rintro ⟨inside,used,built⟩
    have stays : ¬dead p := fun gone => used (drops.freed p gone)
    rw [Ne,drops.used p stays inside] at used
    exact ⟨⟨inside,used,built⟩,stays⟩
  · rintro ⟨⟨inside,used,built⟩,stays⟩
    rw [Ne,drops.used p stays inside]
    exact ⟨inside,used,built⟩

theorem Drops.child (drops : Drops dead s t) (inside : InTable p) :
    Child t q p ↔ Child s q p ∧ ¬dead p := by
  unfold Child
  simp only [ne_eq,drops.built,drops.occupant,drops.spawner,drops.counting]
  by_cases gone : dead p
  · simp [drops.freed p gone,gone]
  · simp [drops.used p gone inside,drops.parent p gone inside,gone]

/-- The freed children of each entry that stays are taken from its counter. -/
theorem Drops.count {items : List Int} (drops : Drops dead s t) (distinct : items.Nodup)
    (members : ∀ z, z ∈ items ↔ InTable z ∧ dead z ∧ Child s q z) :
    childCount t q + items.length = childCount s q := by
  refine countP_drop (by decide) distinct (fun z member => ?_) fun p there => ?_
  · obtain ⟨inside,-,child⟩ := (members z).mp member
    exact ⟨(mem_tableSlots z).mpr inside,by simpa using child⟩
  · have inside := (mem_tableSlots p).mp there
    rw [Bool.eq_iff_iff]
    simp only [decide_eq_true_eq,Bool.and_eq_true,Bool.not_eq_true',decide_eq_false_iff_not]
    rw [drops.child inside,members]
    constructor
    · rintro ⟨child,stays⟩; exact ⟨child,fun gone => stays gone.2.1⟩
    · rintro ⟨child,stays⟩; exact ⟨child,fun gone => stays ⟨inside,gone,child⟩⟩

theorem Strict.drop (strict : Strict s) (drops : Drops dead s t)
    (unjoined : ∀ p, Ready s p → ¬dead p → s.spawner (s.occupant p) ≠ 0 →
      WasJoined t (s.occupant p) → WasJoined s (s.occupant p))
    (running : ∀ p, Ready s p → ¬dead p → (t.table p).state = .running →
      (s.table p).state = .running ∧ (Alive s (s.occupant p) → Alive t (s.occupant p)))
    (parents : ∀ p, Ready s p → ¬dead p → s.spawner (s.occupant p) ≠ 0 →
      ¬dead (s.slot (s.spawner (s.occupant p))) ∧ InTable (s.slot (s.spawner (s.occupant p))))
    (zombies : ∀ p, Ready s p → ¬dead p → (t.table p).state = .zombie → s.spawner (s.occupant p) ≠ 0 →
      Alive t (s.spawner (s.occupant p)))
    (count : ∀ q, Ready s q → ¬dead q → ∃ items : List Int, items.Nodup ∧
      (∀ z, z ∈ items ↔ InTable z ∧ dead z ∧ Child s q z) ∧
      (t.table q).children = (s.table q).children - items.length) : Strict t := by
  refine ⟨?_,?_,?_,?_,?_,?_⟩
  · intro p again process joined
    obtain ⟨made,stays⟩ := (drops.ready p).mp again
    rw [drops.occupant,drops.spawner] at process
    rw [drops.occupant] at joined
    exact strict.unjoined p made process (unjoined p made stays process joined)
  · intro p again state
    obtain ⟨made,stays⟩ := (drops.ready p).mp again
    rw [drops.occupant]
    obtain ⟨before,lives⟩ := running p made stays state
    exact lives (strict.running p made before)
  · intro p again process
    obtain ⟨made,stays⟩ := (drops.ready p).mp again
    rw [drops.occupant,drops.spawner] at process ⊢
    rw [drops.slot]
    obtain ⟨kept,inside⟩ := parents p made stays process
    exact (strict.parents p made process).imp_right fun used free =>
      used ((drops.used _ kept inside).mp free)
  · intro p again zombie process
    obtain ⟨made,stays⟩ := (drops.ready p).mp again
    rw [drops.occupant,drops.spawner] at process ⊢
    exact zombies p made stays zombie process
  · intro q again
    obtain ⟨made,stays⟩ := (drops.ready q).mp again
    obtain ⟨items,distinct,members,children⟩ := count q made stays
    have total := drops.count distinct members
    rw [children,strict.count q made]
    omega
  · intro w p e at_
    rw [drops.built,drops.occupant]
    exact strict.raw w p e (drops.allocated w p e at_)

theorem Threads.spawner_inside (threads : Threads s) (ready : Ready s p)
    (process : s.spawner (s.occupant p) ≠ 0) : InTable (s.slot (s.spawner (s.occupant p))) :=
  threads.slots _ (Nat.pos_of_ne_zero process) (threads.spawner_lt ready)

/-- Steps that change neither the table nor the records, nor who is counting. -/
structure Quiet (s t : Processes) : Prop where
  table : t.table = s.table
  next : t.next = s.next
  occupant : t.occupant = s.occupant
  slot : t.slot = s.slot
  spawner : t.spawner = s.spawner
  built : t.built = s.built
  joins : t.joins = s.joins
  counting : ∀ w p, t.threads w = .counting p ↔ s.threads w = .counting p
  allocated : ∀ w p e, t.threads w = .allocated p e → s.threads w = .allocated p e
  finished : ∀ w, 0 < w → t.threads w = .finished → s.threads w = .finished

theorem Quiet.alive (quiet : Quiet s t) (living : Alive s c) : Alive t c := by
  obtain ⟨positive,small,live⟩ := living
  exact ⟨positive,by rwa [quiet.next],fun gone => live (quiet.finished c positive gone)⟩

theorem Quiet.drops (quiet : Quiet s t) : Drops (fun _ => False) s t :=
  ⟨⟨quiet.occupant,quiet.slot,quiet.spawner,quiet.built,quiet.counting,quiet.allocated,
    fun _ h => h.elim,fun p _ _ => by rw [quiet.table]⟩,fun p _ _ => by rw [quiet.table]⟩

theorem Strict.quiet (strict : Strict s) (sound : Sound s) (quiet : Quiet s t) : Strict t := by
  refine strict.drop quiet.drops ?_ ?_ ?_ ?_ ?_
  · intro p _ _ _ joined
    unfold WasJoined at joined ⊢
    rwa [quiet.joins] at joined
  · intro p _ _ state
    rw [quiet.table] at state
    exact ⟨state,quiet.alive⟩
  · exact fun p made _ process => ⟨id,sound.threads.spawner_inside made process⟩
  · intro p made _ zombie process
    rw [quiet.table] at zombie
    exact quiet.alive (strict.zombies p made zombie process)
  · exact fun q _ _ => ⟨[],List.nodup_nil,by simp,by simp [quiet.table]⟩

theorem Quiet.trans (first : Quiet s t) (second : Quiet t u) : Quiet s u :=
  ⟨second.table.trans first.table,second.next.trans first.next,second.occupant.trans first.occupant,
    second.slot.trans first.slot,second.spawner.trans first.spawner,second.built.trans first.built,
    second.joins.trans first.joins,fun w p => (second.counting w p).trans (first.counting w p),
    fun w p e before => first.allocated w p e (second.allocated w p e before),
    fun w positive before => first.finished w positive (second.finished w positive before)⟩

theorem goto_quiet (counts : ∀ p, s.threads who ≠ .counting p)
    (calm : (∀ p, phase ≠ .counting p) ∧ ∀ p e, phase ≠ .allocated p e)
    (stays : 0 < who → phase ≠ .finished) : Quiet s (s.goto who phase) := by
  refine ⟨rfl,rfl,rfl,rfl,rfl,rfl,rfl,?_,?_,?_⟩
  · intro w p
    rw [goto_threads]
    split
    · next same => subst same; simp [counts,calm.1]
    · rfl
  · intro w p e before
    rw [goto_threads] at before
    split at before
    · exact absurd before (calm.2 p e)
    · exact before
  · intro w positive before
    rw [goto_threads] at before
    split at before
    · next same => exact absurd before (stays (same ▸ positive))
    · exact before

theorem spawnStart_quiet (threads : Threads s) (at_ : s.threads who = .starting pid) :
    Quiet s (spawnStart who pid s) := by
  have absent := (threads.spawning who pid (by simp [at_,Phase.spawns])).2.2.2.2
  refine (goto_quiet (by simp [at_]) (by simp) (by simp)).trans (goto_quiet (fun p => ?_) (by simp) (by simp))
  rw [goto_threads]
  split <;> simp [absent]

theorem processJoin_quiet (pid : Int) (idle : s.threads who = .idle) : Quiet s (processJoin who pid s) := by
  unfold processJoin
  split
  · exact goto_quiet (by simp [idle]) (by simp) (by simp)
  · refine goto_quiet (by simp [idle]) ?_ ?_
    · unfold afterJoin; split <;> simp
    · intro positive; simp [afterJoin,Nat.ne_of_gt positive]

/-! ### Spawning -/

theorem Strict.allocated (strict : Strict s) (sound : Sound s) (does : Allocates who pid executable s t)
    (idle : s.threads who = .idle) : Strict t := by
  have threads := sound.threads
  have old := threads.occupants
  have ready := does.ready threads
  refine ⟨?_,?_,?_,?_,?_,?_⟩
  · intro p again process
    have made := (ready p).mp again
    rw [does.occupant p (does.apart made),does.spawner _ (old p)] at process
    rw [does.joined,does.occupant p (does.apart made)]
    exact strict.unjoined p made process
  · intro p again running
    have made := (ready p).mp again
    rw [does.table p (does.apart made)] at running
    rw [does.alive threads idle,does.occupant p (does.apart made)]
    exact .inl (strict.running p made running)
  · intro p again process
    have made := (ready p).mp again
    rw [does.occupant p (does.apart made),does.spawner _ (old p)] at process ⊢
    obtain ⟨own,used⟩ := strict.parents p made process
    have other : s.slot (s.spawner (s.occupant p)) ≠ pid := fun same => used (same ▸ does.free)
    rw [does.slot _ (threads.spawner_lt made),does.occupant _ other,does.table _ other]
    exact ⟨own,used⟩
  · intro p again zombie process
    have made := (ready p).mp again
    rw [does.occupant p (does.apart made),does.spawner _ (old p)] at process ⊢
    rw [does.table p (does.apart made)] at zombie
    exact (does.alive threads idle _).mpr (.inl (strict.zombies p made zombie process))
  · intro q again
    have made := (ready q).mp again
    rw [does.table q (does.apart made),strict.count q made]
    refine congrArg _ (childCount_congr fun p _ => ?_).symm
    by_cases same : p = pid
    · subst same
      have fresh := threads.unbuilt s.next (Nat.le_refl s.next)
      simp [Child,does.free,does.taken,does.rest.1,fresh]
    · unfold Child
      rw [does.table p same,does.occupant p same,does.rest.1,does.spawner _ (old p)]
      by_cases mine : s.spawner (s.occupant p) = who
      · simp [mine,does.mine,idle]
      · rw [does.phase _ mine]
  · intro w q e at_
    rw [does.rest.1]
    by_cases mine : w = who
    · rw [mine,does.mine] at at_
      cases at_
      rw [does.taken]
      exact threads.unbuilt s.next (Nat.le_refl s.next)
    · rw [does.phase w mine] at at_
      have other : q ≠ pid := by
        rintro rfl
        have := threads.spawning_running (show (s.threads w).spawns = some q by simp [at_,Phase.spawns])
        rw [does.free] at this
        contradiction
      rw [does.occupant q other]
      exact strict.raw w q e at_

theorem Initialises.unlike (does : Initialises who pid executable s t) (threads : Threads s) (within : InTable p)
    (used : (s.table p).state ≠ .free) (apart : p ≠ pid) : s.occupant p ≠ s.occupant pid := by
  intro same
  have own := (threads.occupied p within used).2
  rw [same,(threads.spawning who pid does.spawning).2.2.1] at own
  exact apart own.symm

theorem Strict.no_children (strict : Strict s) (sound : Sound s) (does : Initialises who pid executable s t) :
    childCount t pid = 0 := by
  have threads := sound.threads
  obtain ⟨inside,positive,slot,mine,_⟩ := threads.spawning who pid does.spawning
  refine List.countP_eq_zero.mpr fun p member => ?_
  have within := (mem_tableSlots p).mp member
  simp only [decide_eq_true_eq]
  rintro ⟨used,built,parent,-⟩
  rw [does.state] at used
  by_cases here : p = pid
  · subst here
    rw [does.here] at parent
    have apart := threads.apart _ positive (threads.occupants p)
    rw [mine,slot] at apart
    exact apart parent
  · rw [does.table p here] at parent
    rw [does.built,does.occupant,if_neg (does.unlike threads within used here)] at built
    have made : Ready s p := ⟨within,used,built⟩
    have names := strict.parent sound made
    rw [parent] at names
    have process : s.spawner (s.occupant p) ≠ 0 := by
      intro startup
      rw [startup,threads.startup] at names
      have := inside.1
      omega
    have own := (strict.parents p made process).1
    rw [← names] at own
    exact does.childless threads made own.symm

theorem Initialises.children (does : Initialises who pid executable s t) (threads : Threads s)
    (raw : s.built (s.occupant pid) = false) (q : Int) : childCount t q = childCount s q := by
  obtain ⟨_,_,_,mine,_⟩ := threads.spawning who pid does.spawning
  refine childCount_congr fun p within => ?_
  by_cases here : p = pid
  · subst here
    simp [Child,raw,does.phase,does.spawner,does.occupant,mine]
  · unfold Child
    rw [does.table p here,does.spawner,does.occupant,does.built]
    by_cases used : (s.table p).state = .free
    · simp [used]
    · rw [if_neg (does.unlike threads within used here),does.phase]
      split
      · next same => simp [same,does.before,Ne.symm here]
      · rfl

theorem Strict.initialised (strict : Strict s) (sound : Sound s)
    (does : Initialises who pid executable s t) : Strict t := by
  have threads := sound.threads
  have ready := does.ready threads
  obtain ⟨_,positive,_,mine,absent⟩ := threads.spawning who pid does.spawning
  have lives := threads.born_lt (c := who) (by simp [does.before])
  refine ⟨?_,?_,?_,?_,?_,?_⟩
  · intro p again process
    rw [does.spawner,does.occupant] at process
    rw [does.joined,does.occupant]
    rcases (ready p).mp again with made | rfl
    · exact strict.unjoined p made process
    · exact does.unjoined threads sound.log
  · intro p again running
    rw [does.alive,does.occupant]
    rcases (ready p).mp again with made | rfl
    · rw [does.state] at running
      exact strict.running p made running
    · exact ⟨positive,threads.occupants p,by simp [absent]⟩
  · intro p again process
    rw [does.spawner,does.occupant] at process ⊢
    rw [does.slot,does.state]
    rcases (ready p).mp again with made | rfl
    · exact strict.parents p made process
    · rw [mine] at process ⊢
      have running := threads.alive who ⟨Nat.pos_of_ne_zero process,lives,by simp [does.before]⟩
      exact ⟨running.1,by rw [running.2]; simp⟩
  · intro p again zombie process
    rw [does.spawner,does.occupant] at process ⊢
    rw [does.state] at zombie
    rw [does.alive]
    rcases (ready p).mp again with made | rfl
    · exact strict.zombies p made zombie process
    · rw [threads.spawning_running does.spawning] at zombie
      contradiction
  · intro q again
    by_cases same : q = pid
    · subst same
      rw [strict.no_children sound does,does.here]
      rfl
    · rw [does.table q same,strict.count q (((ready q).mp again).resolve_right same)]
      exact congrArg _ (does.children threads (strict.raw who pid executable does.before) q).symm
  · intro w q e at_
    rw [does.phase] at at_
    split at at_
    · contradiction
    next other =>
    rw [does.built,does.occupant,if_neg]
    · exact strict.raw w q e at_
    · intro same
      have := (threads.spawning w q (by simp [at_,Phase.spawns])).2.2.2.1
      rw [same,mine] at this
      exact other this.symm

/-- What counting a new process does: its parent has one child more. -/
structure Counts (who : Nat) (pid : Int) (s t : Processes) : Prop where
  before : s.threads who = .counting pid
  fields : ∀ p, (t.table p).state = (s.table p).state ∧ (t.table p).parent = (s.table p).parent ∧
    (t.table p).children = (s.table p).children + if 0 ≤ p ∧ p = s.slot who then 1 else 0
  retval : ∀ p, (t.table p).retval = (s.table p).retval
  phase : ∀ w, t.threads w = if w = who then .starting pid else s.threads w
  next : t.next = s.next
  occupant : t.occupant = s.occupant
  slot : t.slot = s.slot
  spawner : t.spawner = s.spawner
  built : t.built = s.built
  joins : t.joins = s.joins

theorem spawnCount_counts (before : s.threads who = .counting pid) : Counts who pid s (spawnCount who pid s) := by
  have same : (spawnCount who pid s).next = s.next ∧ (spawnCount who pid s).occupant = s.occupant ∧
      (spawnCount who pid s).slot = s.slot ∧ (spawnCount who pid s).spawner = s.spawner ∧
      (spawnCount who pid s).built = s.built ∧ (spawnCount who pid s).joins = s.joins := by
    simp only [spawnCount]
    split <;> exact ⟨rfl,rfl,rfl,rfl,rfl,rfl⟩
  obtain ⟨next,occupant,slot,spawner,built,joins⟩ := same
  refine ⟨before,?_,?_,?_,next,occupant,slot,spawner,built,joins⟩
  · intro p
    simp only [spawnCount]
    by_cases counts : 0 ≤ s.slot who
    · rw [if_pos (show 0 ≤ (s.goto who (.starting pid)).slot who from counts)]
      by_cases here : p = s.slot who
      · subst here; simp [Processes.goto,counts]
      · simp [Processes.goto,here]
    · rw [if_neg (show ¬0 ≤ (s.goto who (.starting pid)).slot who from counts)]
      have : ¬(0 ≤ p ∧ p = s.slot who) := by rintro ⟨low,rfl⟩; exact counts low
      simp [Processes.goto,this]
  · intro p
    simp only [spawnCount]
    split
    · rw [modify_table]; split <;> rfl
    · rfl
  · intro w
    simp only [spawnCount]
    split <;> exact goto_threads s who w _

section Counts
variable (counts : Counts who pid s t)
include counts

theorem Counts.ready (p : Int) : Ready t p ↔ Ready s p := by
  unfold Ready
  rw [(counts.fields p).1,counts.built,counts.occupant]

theorem Counts.alive (c : Nat) : Alive t c ↔ Alive s c := by
  unfold Alive
  rw [counts.phase,counts.next]
  split
  · next equal => simp [equal,counts.before]
  · rfl

theorem Counts.others (apart : p ≠ pid) : Child t q p ↔ Child s q p := by
  unfold Child
  rw [(counts.fields p).1,(counts.fields p).2.1,counts.built,counts.occupant,counts.spawner,counts.phase]
  split
  · next equal => simp [equal,counts.before,Ne.symm apart]
  · rfl

theorem Counts.children (made : Ready s pid) (mine : s.spawner (s.occupant pid) = who)
    (parent : (s.table pid).parent = s.slot who) (inside : InTable q) :
    childCount t q = childCount s q + if 0 ≤ q ∧ q = s.slot who then 1 else 0 := by
  have before : ¬Child s q pid := fun child => child.2.2.2 (by rw [mine]; exact counts.before)
  by_cases own : q = s.slot who
  · rw [if_pos ⟨inside.1,own⟩]
    refine childCount_add_one made.1 before ?_ fun p _ apart => counts.others apart
    refine ⟨by rw [(counts.fields pid).1]; exact made.2.1,by rw [counts.built,counts.occupant]; exact made.2.2,?_,?_⟩
    · rw [(counts.fields pid).2.1,parent,own]
    · rw [counts.spawner,counts.occupant,mine,counts.phase,if_pos rfl]
      simp
  · rw [if_neg fun h => own h.2,Nat.add_zero]
    refine childCount_congr fun p _ => ?_
    by_cases here : p = pid
    · subst here
      refine iff_of_false (fun child => own ?_) before
      have names := child.2.2.1
      rw [(counts.fields p).2.1,parent] at names
      exact names.symm
    · exact counts.others here

end Counts

theorem Strict.counted (strict : Strict s) (sound : Sound s) (at_ : s.threads who = .counting pid) :
    Strict (spawnCount who pid s) := by
  have threads := sound.threads
  have spawns : (s.threads who).spawns = some pid := by simp [at_,Phase.spawns]
  obtain ⟨inside,_,_,mine,_⟩ := threads.spawning who pid spawns
  have running := threads.spawning_running spawns
  have made : Ready s pid := ⟨inside,by simp [running],threads.counted who pid (.inl at_)⟩
  have parent := strict.parent sound made
  rw [mine] at parent
  have counts := spawnCount_counts at_
  have ready := counts.ready
  refine ⟨?_,?_,?_,?_,?_,?_⟩
  · intro p again process
    rw [counts.spawner,counts.occupant] at process
    unfold WasJoined
    rw [counts.joins,counts.occupant]
    exact strict.unjoined p ((ready p).mp again) process
  · intro p again state
    rw [(counts.fields p).1] at state
    rw [counts.alive,counts.occupant]
    exact strict.running p ((ready p).mp again) state
  · intro p again process
    rw [counts.spawner,counts.occupant] at process ⊢
    rw [counts.slot,(counts.fields _).1]
    exact strict.parents p ((ready p).mp again) process
  · intro p again zombie process
    rw [counts.spawner,counts.occupant] at process ⊢
    rw [(counts.fields p).1] at zombie
    rw [counts.alive]
    exact strict.zombies p ((ready p).mp again) zombie process
  · intro q again
    rw [(counts.fields q).2.2,strict.count q ((ready q).mp again),counts.children made mine parent again.1]
    split <;> simp
  · intro w q e before
    rw [counts.phase] at before
    rw [counts.built,counts.occupant]
    split at before
    · contradiction
    · exact strict.raw w q e before

/-! ### Joining -/

theorem sleep_quiet (at_ : s.threads who = .entering pid) : Quiet s { s.goto who (.sleeping pid) with
    waiting := Function.update s.waiting pid (s.waiting pid ++ [who]) } := by
  have quiet : Quiet s (s.goto who (.sleeping pid)) := goto_quiet (by simp [at_]) (by simp) (by simp)
  obtain ⟨table,next,occupant,slot,spawner,built,joins,counting,allocated,finished⟩ := quiet
  exact ⟨table,next,occupant,slot,spawner,built,joins,counting,allocated,finished⟩

theorem Strict.childless (strict : Strict s) (sound : Sound s) (zombie : (s.table q).state = .zombie)
    (inside : InTable q) (none_ : (s.table q).children = 0) (made : Ready s p) :
    s.slot (s.spawner (s.occupant p)) ≠ q := by
  intro same
  have threads := sound.threads
  have child : Child s q p := by
    refine ⟨made.2.1,made.2.2,(strict.parent sound made).trans same,fun counting => ?_⟩
    have positive : 0 < s.spawner (s.occupant p) := by
      rw [Nat.pos_iff_ne_zero]
      intro startup
      rw [startup,threads.startup] at same
      have := inside.1
      omega
    exact threads.zombie_vacant zombie _
      ⟨positive,threads.born_lt (by simp [counting]),by simp [counting]⟩ same
  have some_ : 0 < childCount s q :=
    List.countP_pos_iff.mpr ⟨p,(mem_tableSlots p).mpr made.1,by simpa using child⟩
  have count := strict.count q (threads.zombie_built inside zombie)
  omega

theorem unlinkZombie_rest (q pid : Int) (s : Processes) :
    unlinkZombie q pid s = { s with table := (unlinkZombie q pid s).table } := by
  unfold unlinkZombie
  dsimp only
  split <;> split <;> rfl

theorem joinZombie_rest (who : Nat) (pid : Int) (s : Processes) : (joinZombie who pid s).next = s.next ∧
    (joinZombie who pid s).occupant = s.occupant ∧ (joinZombie who pid s).slot = s.slot ∧
    (joinZombie who pid s).spawner = s.spawner ∧ (joinZombie who pid s).built = s.built ∧
    (joinZombie who pid s).threads = Function.update s.threads who (afterJoin who) ∧
    (joinZombie who pid s).joins = ⟨who, pid, s.occupant pid, (s.table pid).retval⟩ :: s.joins := by
  simp only [joinZombie_eq]
  split
  · rw [unlinkZombie_rest]
    exact ⟨rfl,rfl,rfl,rfl,rfl,rfl,rfl⟩
  · exact ⟨rfl,rfl,rfl,rfl,rfl,rfl,rfl⟩

theorem joinZombie_threads (who : Nat) (pid : Int) (s : Processes) (w : Nat) :
    (joinZombie who pid s).threads w = if w = who then afterJoin who else s.threads w := by
  rw [(joinZombie_rest who pid s).2.2.2.2.2.1]
  by_cases same : w = who <;> simp [same]

theorem joinZombie_alive (who : Nat) (pid : Int) (living : Alive s c) : Alive (joinZombie who pid s) c := by
  obtain ⟨positive,small,live⟩ := living
  refine ⟨positive,by rwa [(joinZombie_rest who pid s).1],?_⟩
  rw [joinZombie_threads]
  split
  · next same => subst same; simp [afterJoin,Nat.ne_of_gt positive]
  · exact live

theorem joinZombie_spawning (at_ : s.threads who = .entering pid) :
    (∀ w p, (joinZombie who pid s).threads w = .counting p ↔ s.threads w = .counting p) ∧
    ∀ w p e, (joinZombie who pid s).threads w = .allocated p e → s.threads w = .allocated p e := by
  constructor
  · intro w p
    rw [joinZombie_threads]
    split
    · next same => subst same; unfold afterJoin; split <;> simp [at_]
    · rfl
  · intro w p e before
    rw [joinZombie_threads] at before
    split at before
    · unfold afterJoin at before; split at before <;> contradiction
    · exact before

theorem joinZombie_freed (who : Nat) (childless : (s.table pid).children = 0) (p : Int) :
    ((joinZombie who pid s).table p).state = (if p = pid then .free else (s.table p).state) ∧
    (p ≠ pid → ((joinZombie who pid s).table p).parent = (s.table p).parent ∧
      ((joinZombie who pid s).table p).children = (s.table p).children - (if p = s.slot who then 1 else 0) ∧
      ((joinZombie who pid s).table p).retval = (s.table p).retval) := by
  have table : ∀ r, ((marked who pid s).table r).state = (s.table r).state ∧
      ((marked who pid s).table r).children = (s.table r).children ∧
      (r ≠ pid → ((marked who pid s).table r).parent = (s.table r).parent ∧
        ((marked who pid s).table r).retval = (s.table r).retval) := by
    intro r
    by_cases here : r = pid
    · subst here; simp [marked,Processes.goto]
    · simp [marked,Processes.goto,here]
  simp only [joinZombie_eq,childless,if_true,processReset]
  rw [modify_table]
  split
  · next here => exact ⟨rfl,fun apart => absurd here apart⟩
  next here =>
  simp only [unlinkZombie_table]
  rw [modify_table]
  split
  · next caller =>
    subst caller
    exact ⟨(table _).1,fun _ => ⟨((table _).2.2 here).1,by simp [table],((table _).2.2 here).2⟩⟩
  · exact ⟨(table p).1,fun _ => ⟨((table p).2.2 here).1,by simp [table],((table p).2.2 here).2⟩⟩

theorem joinZombie_drops (at_ : s.threads who = .entering pid) (childless : (s.table pid).children = 0) :
    Drops (· = pid) s (joinZombie who pid s) := by
  obtain ⟨_,occupant,slot,spawner,built,_,_⟩ := joinZombie_rest who pid s
  obtain ⟨counting,allocated⟩ := joinZombie_spawning at_
  have fields := joinZombie_freed who childless
  refine ⟨⟨occupant,slot,spawner,built,counting,allocated,?_,?_⟩,?_⟩
  · rintro p rfl; rw [(fields p).1,if_pos rfl]
  · intro p apart _; rw [(fields p).1,if_neg apart]
  · exact fun p apart _ => ((fields p).2 apart).1

theorem joinZombie_kept (who : Nat) (childless : (s.table pid).children ≠ 0) (p : Int) :
    ((joinZombie who pid s).table p).state = (s.table p).state ∧
    ((joinZombie who pid s).table p).children = (s.table p).children ∧
    ((joinZombie who pid s).table p).retval = (if p = pid then -1 else (s.table p).retval) ∧
    ((joinZombie who pid s).table p).parent = if p = pid then -1 else (s.table p).parent := by
  simp only [joinZombie_eq,childless,if_false]
  by_cases here : p = pid
  · subst here; simp [marked,Processes.goto]
  · simp [marked,Processes.goto,here]

theorem joinZombie_thins (at_ : s.threads who = .entering pid) (childless : (s.table pid).children ≠ 0) :
    Thins (fun _ => False) s (joinZombie who pid s) := by
  obtain ⟨_,occupant,slot,spawner,built,_,_⟩ := joinZombie_rest who pid s
  obtain ⟨counting,allocated⟩ := joinZombie_spawning at_
  exact ⟨occupant,slot,spawner,built,counting,allocated,fun _ h => h.elim,
    fun p _ _ => by rw [(joinZombie_kept who childless p).1]⟩

theorem Threads.occupants_apart (threads : Threads s) (first : Ready s p) (second : Ready s q) (apart : p ≠ q) :
    s.occupant p ≠ s.occupant q := by
  intro same
  have slot := (threads.occupied p first.1 first.2.1).2
  rw [same,(threads.occupied q second.1 second.2.1).2] at slot
  exact apart slot.symm

theorem joinZombie_joined (who : Nat) (threads : Threads s) (ready : Ready s pid) (made : Ready s p) (apart : p ≠ pid)
    (joined : WasJoined (joinZombie who pid s) (s.occupant p)) : WasJoined s (s.occupant p) := by
  unfold WasJoined at joined ⊢
  rw [(joinZombie_rest who pid s).2.2.2.2.2.2] at joined
  exact (List.mem_cons.mp joined).resolve_left (threads.occupants_apart made ready apart)

theorem Strict.join_freed (strict : Strict s) (sound : Sound s) (at_ : s.threads who = .entering pid)
    (zombie : (s.table pid).state = .zombie) (childless : (s.table pid).children = 0) : Strict (joinZombie who pid s) := by
  have threads := sound.threads
  obtain ⟨ready,mine,-⟩ := sound.waiters.joining who pid (by simp [at_,Phase.joins])
  have parent := strict.parent sound ready
  rw [mine] at parent
  have fields := joinZombie_freed who childless
  refine strict.drop (joinZombie_drops at_ childless) ?_ ?_ ?_ ?_ ?_
  · exact fun p made apart _ => joinZombie_joined who threads ready made apart
  · intro p _ apart running
    rw [(fields p).1,if_neg apart] at running
    exact ⟨running,joinZombie_alive who pid⟩
  · exact fun p made _ process => ⟨strict.childless sound zombie ready.1 childless made,
      threads.spawner_inside made process⟩
  · intro p made apart dead process
    rw [(fields p).1,if_neg apart] at dead
    exact joinZombie_alive who pid (strict.zombies p made dead process)
  · intro q _ apart
    by_cases caller : q = s.slot who
    · refine ⟨[pid],List.nodup_singleton pid,fun z => ?_,?_⟩
      case refine_2 => rw [((fields q).2 apart).2.1,if_pos caller]; simp
      rw [List.mem_singleton]
      refine ⟨?_,fun h => h.2.1⟩
      rintro rfl
      exact ⟨ready.1,rfl,ready.2.1,ready.2.2,parent.trans caller.symm,by simp [mine,at_]⟩
    · refine ⟨[],List.nodup_nil,fun z => ?_,by simp [(fields q).2 apart,caller]⟩
      refine ⟨fun h => absurd h (List.not_mem_nil),?_⟩
      rintro ⟨-,rfl,child⟩
      exact absurd (child.2.2.1.symm.trans parent) caller

/-- The startup thread, whose entry is no part of the table, leaves the zombie in the table. -/
theorem Strict.join_startup (strict : Strict s) (sound : Sound s) (at_ : s.threads 0 = .entering pid)
    (childless : (s.table pid).children ≠ 0) : Strict (joinZombie 0 pid s) := by
  have threads := sound.threads
  obtain ⟨ready,mine,-⟩ := sound.waiters.joining 0 pid (by simp [at_,Phase.joins])
  have parent := strict.parent sound ready
  rw [mine] at parent
  have fields := joinZombie_kept 0 childless
  have drops : Drops (fun _ => False) s (joinZombie 0 pid s) := by
    refine ⟨joinZombie_thins at_ childless,fun p _ _ => ?_⟩
    rw [(fields p).2.2.2]
    split
    · next here => rw [here,parent,threads.startup]
    · rfl
  refine strict.drop drops ?_ ?_ ?_ ?_ ?_
  · intro p made _ process joined
    refine joinZombie_joined 0 threads ready made ?_ joined
    rintro rfl
    exact process mine
  · intro p _ _ running
    exact ⟨(fields p).1.symm.trans running,joinZombie_alive 0 pid⟩
  · exact fun p made _ process => ⟨id,threads.spawner_inside made process⟩
  · intro p made _ dead process
    exact joinZombie_alive 0 pid (strict.zombies p made ((fields p).1.symm.trans dead) process)
  · exact fun q _ _ => ⟨[],List.nodup_nil,by simp,by simp [fields]⟩

theorem Strict.join (strict : Strict s) (sound : Sound s) (at_ : s.threads who = .entering pid)
    (last : (s.table pid).state = .zombie → who ≠ 0 → (s.table pid).children = 0) :
    Strict (joinLocked who pid s) := by
  unfold joinLocked
  split
  case isFalse => exact strict.quiet sound (sleep_quiet at_)
  next zombie =>
  by_cases childless : (s.table pid).children = 0
  · exact strict.join_freed sound at_ zombie childless
  · obtain rfl : who = 0 := by
      by_contra process
      exact childless (last zombie process)
    exact strict.join_startup sound at_ childless

/-! ### Finishing -/

/-- The list from an entry in use: exactly the zombies that name it as their parent. -/
theorem Strict.zombieList (strict : Strict s) (sound : Sound s) (ready : Ready s q) :
    ∃ items, Chain (fun p => (s.table p).nextZombie) (-1) (s.table q).firstZombie items ∧
      Back (fun p => (s.table p).prevZombie) (-1) items ∧
      ∀ z, z ∈ items ↔ InTable z ∧ (s.table z).state = .zombie ∧ (s.table z).parent = q := by
  obtain ⟨lists,list⟩ := sound.lists
  obtain ⟨items,at_⟩ := Option.ne_none_iff_exists'.mp (list.ready q ready)
  obtain ⟨chain,back⟩ := list.chain q items at_
  have own : ∀ z, Ready s z → (s.table z).state = .zombie → s.spawner (s.occupant z) ≠ 0 →
      ∃ others, lists (s.slot (s.spawner (s.occupant z))) = some others ∧ z ∈ others :=
    fun z made zombie process => list.mine z made zombie (strict.zombies z made zombie process)
  refine ⟨items,chain,back,fun z => ⟨fun member => ?_,?_⟩⟩
  · obtain ⟨made,zombie,process,-⟩ := list.members q items at_ z member
    obtain ⟨others,there,member'⟩ := own z made zombie process
    have same := list.disjoint _ _ _ _ z there at_ member' member
    exact ⟨made.1,zombie,(strict.parent sound made).trans same⟩
  · rintro ⟨inside,zombie,names⟩
    have made := sound.threads.zombie_built inside zombie
    rw [strict.parent sound made] at names
    have process : s.spawner (s.occupant z) ≠ 0 := by
      intro startup
      rw [startup,sound.threads.startup] at names
      have := ready.1.1
      omega
    obtain ⟨others,there,member⟩ := own z made zombie process
    rw [names,at_] at there
    cases there
    exact member

/-- What `process_finish` does to the structure of the table: its zombie children `items`
are freed, and its own entry is too if it is an `orphan`, else it becomes a zombie. -/
structure Leaves (who : Nat) (items : List Int) (orphan : Prop) (s t : Processes) : Prop where
  next : t.next = s.next
  occupant : t.occupant = s.occupant
  slot : t.slot = s.slot
  spawner : t.spawner = s.spawner
  built : t.built = s.built
  joins : t.joins = s.joins
  counting : ∀ w p, t.threads w = .counting p ↔ s.threads w = .counting p
  allocated : ∀ w p e, t.threads w = .allocated p e → s.threads w = .allocated p e
  finished : ∀ w, t.threads w = .finished ↔ s.threads w = .finished ∨ w = who
  freed : ∀ p, p ∈ items ∨ p = s.slot who ∧ orphan → (t.table p).state = .free
  state : ∀ p, ¬(p ∈ items ∨ p = s.slot who ∧ orphan) →
    (t.table p).state = if p = s.slot who then .zombie else (s.table p).state
  parent : ∀ p, p ∉ items → (t.table p).parent = (s.table p).parent
  own : (t.table (s.slot who)).children = (s.table (s.slot who)).children - items.length
  above : orphan → (t.table (s.table (s.slot who)).parent).children =
    (s.table (s.table (s.slot who)).parent).children - 1
  others : ∀ p, p ≠ s.slot who → (orphan → p ≠ (s.table (s.slot who)).parent) →
    (t.table p).children = (s.table p).children

theorem Leaves.wake (leaves : Leaves who items orphan s t)
    (queue : ∀ w ∈ t.waiting p, (t.threads w).joins ≠ none) : Leaves who items orphan s (sleepqWake p t) := by
  unfold sleepqWake
  split
  · exact leaves
  next w rest waiting =>
  have before := queue w (by simp [waiting])
  have phase : ∀ c, (t.goto w (.entering p)).threads c = if c = w then .entering p else t.threads c :=
    fun c => goto_threads t w c _
  obtain ⟨next,occupant,slot,spawner,built,joins,counting,allocated,finished,freed,state,parent,own,above,others⟩ :=
    leaves
  refine ⟨next,occupant,slot,spawner,built,joins,?_,?_,?_,freed,state,parent,own,above,others⟩
  · intro c q
    rw [← counting]
    change (t.goto w (.entering p)).threads c = _ ↔ _
    rw [phase]
    split
    · next same =>
      subst same
      exact ⟨fun h => by simp at h,fun h => absurd (by simp [h,Phase.joins]) before⟩
    · rfl
  · intro c q e entered
    change (t.goto w (.entering p)).threads c = _ at entered
    rw [phase] at entered
    split at entered
    · simp at entered
    · exact allocated c q e entered
  · intro c
    rw [← finished]
    change (t.goto w (.entering p)).threads c = _ ↔ _
    rw [phase]
    split
    · next same =>
      subst same
      exact ⟨fun h => by simp at h,fun h => absurd (by simp [h,Phase.joins]) before⟩
    · rfl

theorem Leaves.drops (leaves : Leaves who items orphan s t)
    (running : (s.table (s.slot who)).state = .running) :
    Drops (fun p => p ∈ items ∨ p = s.slot who ∧ orphan) s t := by
  refine ⟨⟨leaves.occupant,leaves.slot,leaves.spawner,leaves.built,leaves.counting,leaves.allocated,
    leaves.freed,fun p stays _ => ?_⟩,fun p stays _ => leaves.parent p fun member => stays (.inl member)⟩
  rw [leaves.state p stays]
  split
  · next here => simp [here,running]
  · rfl

theorem Leaves.alive (leaves : Leaves who items orphan s t) (c : Nat) :
    Alive t c ↔ Alive s c ∧ c ≠ who := by
  unfold Alive
  rw [leaves.next,Ne,leaves.finished]
  tauto

theorem Threads.zombie_child (threads : Threads s) (within : InTable z) (zombie : (s.table z).state = .zombie)
    (names : (s.table z).parent = q) : Child s q z := by
  have made := threads.zombie_built within zombie
  refine ⟨made.2.1,made.2.2,names,fun counting => ?_⟩
  have other := threads.spawning_running (show (s.threads _).spawns = some z by rw [counting]; rfl)
  rw [zombie] at other
  contradiction

/-- The children that an entry loses: its zombies, the process itself or none. -/
theorem Leaves.lost (leaves : Leaves who items orphan s t) (threads : Threads s) (idle : s.threads who = .idle)
    (ready : Ready s (s.slot who)) (mine : s.occupant (s.slot who) = who) (distinct : items.Nodup)
    (members : ∀ z, z ∈ items ↔ InTable z ∧ (s.table z).state = .zombie ∧ (s.table z).parent = s.slot who)
    (stays : ¬(q ∈ items ∨ q = s.slot who ∧ orphan)) : ∃ lost : List Int, lost.Nodup ∧
      (∀ z, z ∈ lost ↔ InTable z ∧ (z ∈ items ∨ z = s.slot who ∧ orphan) ∧ Child s q z) ∧
      (t.table q).children = (s.table q).children - lost.length := by
  have child : ∀ z ∈ items, Child s (s.slot who) z := by
    intro z member
    obtain ⟨within,zombie,names⟩ := (members z).mp member
    exact threads.zombie_child within zombie names
  by_cases own : q = s.slot who
  · subst own
    refine ⟨items,distinct,fun z => ⟨fun member => ?_,?_⟩,leaves.own⟩
    · exact ⟨((members z).mp member).1,.inl member,child z member⟩
    · rintro ⟨-,member | here,-⟩
      · exact member
      · exact absurd (.inr ⟨rfl,here.2⟩) stays
  by_cases above : orphan ∧ q = (s.table (s.slot who)).parent
  · obtain ⟨lone,rfl⟩ := above
    refine ⟨[s.slot who],List.nodup_singleton _,fun z => ?_,by simpa using leaves.above lone⟩
    rw [List.mem_singleton]
    constructor
    · rintro rfl
      refine ⟨ready.1,.inr ⟨rfl,lone⟩,ready.2.1,ready.2.2,rfl,fun counting => ?_⟩
      have absent := (threads.spawning _ _ (show (s.threads _).spawns = some (s.slot who) by
        rw [counting]; rfl)).2.2.2.2
      rw [mine,idle] at absent
      contradiction
    · rintro ⟨-,member | here,names⟩
      · exact absurd (names.2.2.1.symm.trans (child z member).2.2.1) own
      · exact here.1
  · refine ⟨[],List.nodup_nil,fun z => ⟨fun h => absurd h List.not_mem_nil,?_⟩,?_⟩
    · rintro ⟨-,member | ⟨rfl,lone⟩,names⟩
      · exact absurd (names.2.2.1.symm.trans (child z member).2.2.1) own
      · exact absurd ⟨lone,names.2.2.1.symm⟩ above
    · rw [leaves.others q own fun lone same => above ⟨lone,same⟩]
      simp

theorem Strict.leave (strict : Strict s) (sound : Sound s) (leaves : Leaves who items orphan s t)
    (idle : s.threads who = .idle) (process : 0 < who) (distinct : items.Nodup)
    (members : ∀ z, z ∈ items ↔ InTable z ∧ (s.table z).state = .zombie ∧
      (s.table z).parent = s.slot who)
    (barren : ∀ z ∈ items, (s.table z).children = 0)
    (alone : orphan → ∀ p, Ready s p → (s.table p).state = .running → (s.table p).parent ≠ s.slot who)
    (dead : ¬orphan → 0 ≤ (s.table (s.slot who)).parent →
      (s.table (s.table (s.slot who)).parent).state ≠ .zombie) : Strict t := by
  have threads := sound.threads
  have living : Alive s who := ⟨process,threads.born_lt (by simp [idle]),by simp [idle]⟩
  obtain ⟨mine,running⟩ := threads.alive who living
  have inside := threads.slots who living.1 living.2.1
  have ready : Ready s (s.slot who) :=
    ⟨inside,by simp [running],by rw [mine]; exact threads.built who process (by simp [idle])⟩
  have parent := strict.parent sound ready
  rw [mine] at parent
  have apart := threads.apart who living.1 living.2.1
  refine strict.drop (leaves.drops running) ?_ ?_ ?_ ?_ ?_
  · intro p _ _ _ joined
    unfold WasJoined at joined ⊢
    rwa [leaves.joins] at joined
  · intro p made stays state
    rw [leaves.state p stays] at state
    split at state
    · contradiction
    next other =>
    refine ⟨state,fun lives => (leaves.alive _).mpr ⟨lives,fun same => other ?_⟩⟩
    rw [← same,(threads.occupied p made.1 made.2.1).2]
  · intro p made stays process
    refine ⟨?_,threads.spawner_inside made process⟩
    rintro (gone | ⟨own,lone⟩)
    · obtain ⟨within,zombie,-⟩ := (members _).mp gone
      exact strict.childless sound zombie within (barren _ gone) made rfl
    · have names := (strict.parent sound made).trans own
      cases state : (s.table p).state with
      | free => exact made.2.1 state
      | running => exact alone lone p made state names
      | zombie => exact stays (.inl ((members p).mpr ⟨made.1,state,names⟩))
  · intro p made stays zombie process
    rw [leaves.state p stays] at zombie
    refine (leaves.alive _).mpr ?_
    split at zombie
    · next here =>
      subst here
      rw [mine] at process ⊢
      have above := strict.parents _ ready (by rwa [mine])
      rw [mine,← parent] at above
      have within := threads.spawner_inside ready (by rwa [mine])
      rw [mine,← parent] at within
      have present : (s.table (s.table (s.slot who)).parent).state = .running := by
        cases state : (s.table (s.table (s.slot who)).parent).state with
        | free => exact absurd state above.2
        | running => rfl
        | zombie => exact absurd state (dead (fun lone => stays (.inr ⟨rfl,lone⟩)) within.1)
      have built : s.built (s.spawner who) = true := by
        refine threads.built _ (Nat.pos_of_ne_zero process) ?_
        exact (threads.spawners who living.1 living.2.1).2
      have lives := strict.running _ ⟨within,above.2,by rwa [above.1]⟩ present
      rw [above.1] at lives
      exact ⟨lives,fun same => apart (by rw [same])⟩
    · refine ⟨strict.zombies p made zombie process,fun same => stays (.inl ?_)⟩
      exact (members p).mpr ⟨made.1,zombie,(strict.parent sound made).trans (by rw [same])⟩
  · exact fun q _ stays => leaves.lost threads idle ready mine distinct members stays

theorem leavingState_leaves (idle : s.threads who = .idle) (outside : s.slot who ∉ items) (v : Int)
    {table : Int → Entry} (orphan : Prop)
    (freed : ∀ p, p ∈ items ∨ p = s.slot who ∧ orphan → (table p).state = .free)
    (state : ∀ p, ¬(p ∈ items ∨ p = s.slot who ∧ orphan) → (table p).state =
      if p = s.slot who then .zombie else ((leavingState who v items s).table p).state)
    (parent : ∀ p, p ∉ items → (table p).parent = ((leavingState who v items s).table p).parent)
    (own : (table (s.slot who)).children = ((leavingState who v items s).table (s.slot who)).children)
    (above : orphan → (table (s.table (s.slot who)).parent).children =
      (s.table (s.table (s.slot who)).parent).children - 1)
    (others : ∀ p, p ≠ s.slot who → (orphan → p ≠ (s.table (s.slot who)).parent) →
      (table p).children = ((leavingState who v items s).table p).children) :
    Leaves who items orphan s { leavingState who v items s with table := table } := by
  have phase : ∀ w, (leavingState who v items s).threads w = if w = who then .finished else s.threads w :=
    fun w => goto_threads s who w _
  refine ⟨rfl,rfl,rfl,rfl,rfl,rfl,?_,?_,?_,freed,?_,?_,?_,above,?_⟩
  · intro w p
    change (leavingState who v items s).threads w = _ ↔ _
    rw [phase]
    split
    · next same => subst same; simp [idle]
    · rfl
  · intro w p e before
    change (leavingState who v items s).threads w = _ at before
    rw [phase] at before
    split at before
    · contradiction
    · exact before
  · intro w
    change (leavingState who v items s).threads w = _ ↔ _
    rw [phase]
    split
    · next same => simp [same]
    · next other => simp [other]
  · intro p stays
    have unlisted : p ∉ items := fun member => stays (.inl member)
    rw [state p stays,leavingState_table,if_neg unlisted]
    split <;> rfl
  · intro p unlisted
    rw [parent p unlisted,leavingState_table,if_neg unlisted]
    split <;> rfl
  · rw [own,leavingState_table,if_neg outside,if_pos rfl]
  · intro p apart lone
    rw [others p apart lone,leavingState_table,if_neg apart]
    split <;> rfl

theorem sleepqWake_modify (q p : Int) (f : Entry → Entry) (s : Processes) :
    (sleepqWake q s).modify p f = sleepqWake q (s.modify p f) := by
  unfold sleepqWake
  rw [show (s.modify p f).waiting q = s.waiting q from rfl]
  cases s.waiting q <;> rfl

/-- The recursive call for a parent without zombie children changes only its `retval`. -/
theorem finishGivenProcess_parent (parent : (s.table q).parent = -1) (first : (s.table q).firstZombie = -1)
    (zombie : (s.table q).state = .zombie) (fuel : Nat) : finishGivenProcess (fuel + 1) q 0 s =
      some (sleepqWake q (s.modify q fun e => { e with retval := 0 })) := by
  have empty : reapZombies (scanned.length + 1) q (s.modify q fun e => { e with retval := 0 }) =
      some (s.modify q fun e => { e with retval := 0 }) := by
    simp [reapZombies,first]
  simp only [finishGivenProcess,parent,empty,Option.bind_some,giveUp]
  rw [if_neg (by omega),if_neg (by omega)]
  refine congrArg (fun x => some (sleepqWake q x)) (modify_self ?_)
  simp [zombie]

theorem leavingState_zombie (running : (s.table (s.slot who)).state = .running)
    (zombie : ((leavingState who v items s).table q).state = .zombie) :
    q ∉ items ∧ q ≠ s.slot who ∧ (leavingState who v items s).table q = s.table q := by
  rw [leavingState_table] at zombie ⊢
  split at zombie
  · contradiction
  next unlisted =>
  split at zombie
  · next here => subst here; rw [running] at zombie; contradiction
  · next apart => exact ⟨unlisted,apart,by rw [if_neg unlisted,if_neg apart]⟩

section Giving
variable {who : Nat} {items : List Int} {v : Int}

theorem leaves_orphan (idle : s.threads who = .idle) (running : (s.table (s.slot who)).state = .running)
    (outside : s.slot who ∉ items) (parent : q = (s.table (s.slot who)).parent)
    (zombie : ((leavingState who v items s).table q).state = .zombie) (lone : orphan)
    {table : Int → Entry} (same : ∀ p, (table p).state = ((leavingState who v items s).table p).state ∧
      (table p).parent = ((leavingState who v items s).table p).parent ∧ (table p).children =
        ((leavingState who v items s).table p).children - if p = q then 1 else 0) :
    Leaves who items orphan s { leavingState who v items s with
      table := Function.update table (s.slot who) { table (s.slot who) with state := .free } } := by
  obtain ⟨unlisted,apart,there⟩ := leavingState_zombie running zombie
  refine leavingState_leaves idle outside v orphan ?_ ?_ ?_ ?_ ?_ ?_
  · rintro p (member | ⟨here,-⟩)
    · have other : p ≠ s.slot who := by rintro rfl; exact outside member
      rw [Function.update_of_ne other,(same p).1,leavingState_table,if_pos member]
    · simp [here]
  · intro p stays
    have other : p ≠ s.slot who := by rintro rfl; exact stays (.inr ⟨rfl,lone⟩)
    rw [Function.update_of_ne other,if_neg other,(same p).1]
  · intro p _
    by_cases here : p = s.slot who
    · subst here; simp [(same _).2.1]
    · rw [Function.update_of_ne here,(same p).2.1]
  · simp [(same _).2.2,Ne.symm apart]
  · intro _
    rw [← parent,Function.update_of_ne apart,(same q).2.2,there]
    simp
  · intro p other above
    rw [Function.update_of_ne other,(same p).2.2,if_neg (by rw [parent]; exact above lone)]
    omega

theorem leaves_zombie (idle : s.threads who = .idle) (outside : s.slot who ∉ items) (present : ¬orphan) {table : Int → Entry}
    (same : ∀ p, (table p).state = (if p = s.slot who then .zombie else
        ((leavingState who v items s).table p).state) ∧
      (table p).parent = ((leavingState who v items s).table p).parent ∧
      (table p).children = ((leavingState who v items s).table p).children) :
    Leaves who items orphan s { leavingState who v items s with table := table } := by
  refine leavingState_leaves idle outside v orphan ?_ (fun p _ => (same p).1) (fun p _ => (same p).2.1)
    (same _).2.2 (fun lone => absurd lone present) fun p _ _ => (same p).2.2
  rintro p (member | ⟨-,lone⟩)
  · have other : p ≠ s.slot who := by rintro rfl; exact outside member
    rw [(same p).1,if_neg other,leavingState_table,if_pos member]
  · exact absurd lone present

end Giving

/-- Every thread in a sleep queue is in `process_join`. -/
def Asleep (s : Processes) : Prop := ∀ p, ∀ w ∈ s.waiting p, (s.threads w).joins ≠ none

theorem Asleep.modify (asleep : Asleep s) (p : Int) (f : Entry → Entry) : Asleep (s.modify p f) :=
  asleep

theorem Asleep.wake (asleep : Asleep s) (q : Int) : Asleep (sleepqWake q s) := by
  unfold sleepqWake
  split
  · exact asleep
  next who rest queue =>
  intro p w member
  change ((s.goto who (.entering q)).threads w).joins ≠ none
  rw [goto_threads]
  split
  · simp [Phase.joins]
  · refine asleep p w ?_
    by_cases here : p = q
    · subst here
      have later : w ∈ rest := by simpa using member
      simp [queue,later]
    · simpa [here] using member

/-- A zombie has no zombie children: they went when it finished. -/
theorem Strict.zombie_first (strict : Strict s) (sound : Sound s) (inside : InTable q)
    (zombie : (s.table q).state = .zombie) : (s.table q).firstZombie = -1 := by
  obtain ⟨items,chain,-,members⟩ := strict.zombieList sound (sound.threads.zombie_built inside zombie)
  cases items with
  | nil => exact chain
  | cons z rest =>
    obtain ⟨within,dead,names⟩ := (members z).mp List.mem_cons_self
    have made := sound.threads.zombie_built within dead
    rw [strict.parent sound made] at names
    have process : s.spawner (s.occupant z) ≠ 0 := by
      intro startup
      rw [startup,sound.threads.startup] at names
      have := inside.1
      omega
    exact absurd names (sound.threads.zombie_vacant zombie _ (strict.zombies z made dead process))

/-- The parent of the caller is a zombie: the recursive call, if it is made, is for the
initial program after the startup thread has joined it. -/
theorem Strict.giveUp_orphan (strict : Strict s) (sound : Sound s) (idle : s.threads who = .idle)
    (running : (s.table (s.slot who)).state = .running) (outside : s.slot who ∉ items)
    (asleep : Asleep (leavingState who v items s)) (parent : (s.table (s.slot who)).parent = q)
    (inside : InTable q) (zombie : ((leavingState who v items s).table q).state = .zombie) (lone : orphan)
    (gone : Proc.giveUp (fun parent s => finishGivenProcess scanned.length parent 0 s) q (s.slot who)
      (leavingState who v items s) = some t) : Leaves who items orphan s t := by
  obtain ⟨unlisted,apart,there⟩ := leavingState_zombie running zombie
  have first : ((leavingState who v items s).table q).firstZombie = -1 := by
    rw [there] at zombie ⊢
    exact strict.zombie_first sound inside zombie
  have named : ((leavingState who v items s).table q).retval < 0 →
      ((leavingState who v items s).table q).parent = -1 := by
    intro negative
    rw [there] at zombie negative ⊢
    have ready := sound.threads.zombie_built inside zombie
    have joined : WasJoined s (s.occupant q) := by
      by_contra unjoined
      obtain ⟨r,-,value⟩ := sound.entries.retval q ready zombie unjoined
      omega
    exact (sound.entries.joined q ready joined).1
  unfold Proc.giveUp at gone
  rw [if_pos ⟨inside.1,zombie⟩] at gone
  dsimp only at gone
  split at gone
  · next last =>
    rw [show scanned.length = 8 + 1 from rfl,finishGivenProcess_parent (by simpa using named (by simpa using last.2))
      (by simpa using first) (by simpa using zombie)] at gone
    cases gone
    dsimp only
    rw [sleepqWake_modify]
    refine Leaves.wake (Leaves.wake (leaves_orphan idle running outside parent.symm zombie lone
      fun p => ?_) (asleep _)) ?_
    case refine_2 => exact (((asleep.modify _ _).modify _ _).modify _ _).wake q _
    by_cases here : p = q
    · subst here; simp
    · simp [here]
  · cases gone
    refine Leaves.wake (leaves_orphan idle running outside parent.symm zombie lone fun p => ?_) (asleep _)
    by_cases here : p = q
    · subst here; simp
    · simp [here]

theorem Leaving.asleep (leaving : Leaving who pid (leavingState who v items s)) :
    Asleep (leavingState who v items s) := by
  intro p w member
  rw [leaving.sound.waiters.queue p w member]
  simp [Phase.joins]

theorem Leaving.giveUp_zombie (leaving : Leaving who (s.slot who) (leavingState who v items s))
    (idle : s.threads who = .idle) (outside : s.slot who ∉ items)
    (present : ¬(0 ≤ (s.table (s.slot who)).parent ∧
      ((leavingState who v items s).table (s.table (s.slot who)).parent).state = .zombie))
    (gone : Proc.giveUp again (s.table (s.slot who)).parent (s.slot who) (leavingState who v items s) = some t) :
    Leaves who items (0 ≤ (s.table (s.slot who)).parent ∧
      ((leavingState who v items s).table (s.table (s.slot who)).parent).state = .zombie) s t := by
  have same : ((leavingState who v items s).table (s.slot who)).parent = (s.table (s.slot who)).parent := by
    rw [leavingState_table,if_neg outside,if_pos rfl]
  unfold Proc.giveUp at gone
  rw [if_neg present] at gone
  split at gone
  · next positive =>
    cases gone
    have process := (leaving.parent_inside (by rw [same]; exact positive)).1
    obtain ⟨apart,third⟩ := leaving.sound.first_apart leaving.ready leaving.running
      (by rw [leaving.occupant]; exact process) (q := (s.table (s.slot who)).parent)
      (by rw [leaving.occupant,← leaving.parent,same])
    rw [linkZombie_rest]
    refine Leaves.wake (leaves_zombie idle outside present fun p => ?_) (leaving.asleep _)
    rw [linkZombie_table apart third]
    exact ⟨rfl,rfl,rfl⟩
  · cases gone
    refine Leaves.wake (leaves_zombie idle outside present fun p => ?_) (leaving.asleep _)
    by_cases here : p = s.slot who
    · subst here; simp
    · simp [here]

/-- The three ways in which `finish_given_process` ends. -/
theorem Strict.giveUp (strict : Strict s) (sound : Sound s) (idle : s.threads who = .idle)
    (running : (s.table (s.slot who)).state = .running) (outside : s.slot who ∉ items)
    (leaving : Leaving who (s.slot who) (leavingState who v items s))
    (gone : Proc.giveUp (fun parent s => finishGivenProcess scanned.length parent 0 s)
      (s.table (s.slot who)).parent (s.slot who) (leavingState who v items s) = some t) :
    Leaves who items (0 ≤ (s.table (s.slot who)).parent ∧
      ((leavingState who v items s).table (s.table (s.slot who)).parent).state = .zombie) s t := by
  have same : ((leavingState who v items s).table (s.slot who)).parent =
      (s.table (s.slot who)).parent := by
    rw [leavingState_table,if_neg outside,if_pos rfl]
  by_cases lone : 0 ≤ (s.table (s.slot who)).parent ∧
      ((leavingState who v items s).table (s.table (s.slot who)).parent).state = .zombie
  · have inside := (leaving.parent_inside (by rw [same]; exact lone.1)).2
    rw [same] at inside
    exact strict.giveUp_orphan sound idle running outside leaving.asleep rfl inside lone.2 lone gone
  · exact leaving.giveUp_zombie idle outside lone gone

theorem Strict.finish (strict : Strict s) (sound : Sound s) (idle : s.threads who = .idle)
    (process : 0 < who) (finished : processFinish who v s = some t)
    (barren : ∀ z, InTable z → (s.table z).state = .zombie → (s.table z).parent = s.slot who →
      (s.table z).children = 0)
    (alone : 0 ≤ (s.table (s.slot who)).parent →
      (s.table (s.table (s.slot who)).parent).state = .zombie →
      ∀ p, Ready s p → (s.table p).state = .running → (s.table p).parent ≠ s.slot who) : Strict t := by
  have threads := sound.threads
  have living : Alive s who := ⟨process,threads.born_lt (by simp [idle]),by simp [idle]⟩
  obtain ⟨mine,running⟩ := threads.alive who living
  have ready : Ready s (s.slot who) := ⟨threads.slots who living.1 living.2.1,by simp [running],
    by rw [mine]; exact threads.built who process (by simp [idle])⟩
  obtain ⟨items,outside,leaving,chain,reaped⟩ := sound.finish_reap idle process v
  have result := processFinish_reaped reaped
  have members : ∀ z, z ∈ items ↔ InTable z ∧ (s.table z).state = .zombie ∧
      (s.table z).parent = s.slot who := by
    obtain ⟨others,chain',-,members⟩ := strict.zombieList sound ready
    rwa [chain'.unique chain] at members
  have none_ : ∀ z ∈ items, (s.table z).children = 0 := by
    intro z member
    obtain ⟨inside,zombie,names⟩ := (members z).mp member
    exact barren z inside zombie names
  have leaves := strict.giveUp sound idle running outside leaving (result.symm.trans finished)
  refine strict.leave sound leaves idle process chain.nodup members none_ ?_ ?_
  · rintro ⟨low,zombie⟩
    rw [(leavingState_zombie running zombie).2.2] at zombie
    exact alone low zombie
  · intro present low zombie
    have unlisted : (s.table (s.slot who)).parent ∉ items := by
      intro member
      obtain ⟨inside,-,-⟩ := (members _).mp member
      exact strict.childless sound zombie inside (none_ _ member) ready (strict.parent sound ready).symm
    have apart : (s.table (s.slot who)).parent ≠ s.slot who := by
      intro same
      rw [same,running] at zombie
      contradiction
    refine present ⟨low,?_⟩
    rw [leavingState_table,if_neg unlisted,if_neg apart]
    exact zombie

end Steps

/-! ### Runs -/

/-- What keeps the structure: a join passes its check only on an entry in use whose
initialisation is over; a process joins a zombie only after the children of that zombie;
the zombie children of a finishing process have no children; and if its parent is a
zombie, its own children are zombies. -/
def Untangled : Action → Processes → Prop
  | .join who pid, s => joinCheck s who pid = true →
    (s.table pid).state ≠ .free ∧ s.built (s.occupant pid) = true
  | .joinLocked who, s => who ≠ 0 → ∀ pid ∈ (s.threads who).joins,
    (s.table pid).state = .zombie → (s.table pid).children = 0
  | .finish who _, s =>
    (∀ z ∈ tableSlots, (s.table z).state = .zombie → (s.table z).parent = s.slot who →
      (s.table z).children = 0) ∧
    (0 ≤ (s.table (s.slot who)).parent → (s.table (s.table (s.slot who)).parent).state = .zombie →
      ∀ p ∈ tableSlots, s.built (s.occupant p) = true → (s.table p).state = .running →
        (s.table p).parent ≠ s.slot who)
  | _, _ => True

instance (a : Action) (s : Processes) : Decidable (Untangled a s) :=
  match a with
  | .join who pid => inferInstanceAs (Decidable (joinCheck s who pid = true →
      (s.table pid).state ≠ .free ∧ s.built (s.occupant pid) = true))
  | .joinLocked who => inferInstanceAs (Decidable (who ≠ 0 → ∀ pid ∈ (s.threads who).joins,
      (s.table pid).state = .zombie → (s.table pid).children = 0))
  | .finish who _ => inferInstanceAs (Decidable (
      (∀ z ∈ tableSlots, (s.table z).state = .zombie → (s.table z).parent = s.slot who →
        (s.table z).children = 0) ∧
      (0 ≤ (s.table (s.slot who)).parent → (s.table (s.table (s.slot who)).parent).state = .zombie →
        ∀ p ∈ tableSlots, s.built (s.occupant p) = true → (s.table p).state = .running →
          (s.table p).parent ≠ s.slot who)))
  | .spawn .. | .spawnInit _ | .spawnCount _ | .spawnStart _ => isTrue trivial

section Steps
variable {s t : Processes}

theorem Strict.own_child (strict : Strict s) (sound : Sound s) (idle : s.threads who = .idle)
    (checked : joinCheck s who pid = true) (used : (s.table pid).state ≠ .free)
    (built : s.built (s.occupant pid) = true) : s.spawner (s.occupant pid) = who := by
  have threads := sound.threads
  obtain ⟨low,high,parent⟩ : 0 ≤ pid ∧ pid < processMaxProcesses ∧ (s.table pid).parent = s.slot who := by
    simpa [joinCheck] using checked
  have ready : Ready s pid := ⟨⟨low,high⟩,used,built⟩
  rw [strict.parent sound ready] at parent
  by_cases startup : s.spawner (s.occupant pid) = 0 <;> by_cases caller : who = 0
  · rw [startup,caller]
  · rw [startup,threads.startup] at parent
    have := (threads.slots who (by omega) (threads.born_lt (by simp [idle]))).1
    omega
  · rw [caller,threads.startup] at parent
    have := (threads.spawner_inside ready startup).1
    omega
  · have own := (strict.parents pid ready startup).1
    rw [parent,(threads.alive who ⟨by omega,threads.born_lt (by simp [idle]),by simp [idle]⟩).1] at own
    exact own.symm

theorem untangled_clean (strict : Strict s) (sound : Sound s) (next : step a s = some t)
    (ok : Untangled a s) : CleanJoin a s := by
  cases a with
  | join who pid =>
    intro checked
    cases step_stepped next with | join _ _ idle =>
    obtain ⟨used,built⟩ := ok checked
    exact ⟨used,built,strict.own_child sound idle checked used built⟩
  | _ => trivial

theorem step_strict (strict : Strict s) (sound : Sound s) (ok : Roomy a s ∧ Untangled a s)
    (next : step a s = some t) : Strict t := by
  cases step_stepped next with
  | spawn who executable idle =>
    obtain ⟨pid,does⟩ := sound.threads.allocates idle executable ok.1
    exact strict.allocated sound does idle
  | spawnInit who pid executable at_ => exact strict.initialised sound (spawnInit_initialises at_)
  | spawnCount who pid at_ => exact strict.counted sound at_
  | spawnStart who pid at_ => exact strict.quiet sound (spawnStart_quiet sound.threads at_)
  | join who pid idle => exact strict.quiet sound (processJoin_quiet pid idle)
  | joinLocked who pid at_ =>
    exact strict.join sound at_ fun zombie process => ok.2 process pid (by simp [at_,Phase.joins]) zombie
  | finish who retval _ idle process finished =>
    obtain ⟨barren,alone⟩ := ok.2
    refine strict.finish sound idle process finished ?_ ?_
    · exact fun z inside => barren z ((mem_tableSlots z).mpr inside)
    · exact fun low zombie p made => alone low zombie p ((mem_tableSlots p).mpr made.1) made.2.2

end Steps

/-- No `process_spawn` is in progress. -/
def Settled (s : Processes) : Prop := ∀ who, (s.threads who).spawns = none

/-- In a settled state the ready entries are those in use, and all are counted. -/
theorem Threads.settled_ready {s : Processes} (threads : Threads s) (settled : Settled s) (inside : InTable p)
    (used : (s.table p).state ≠ .free) : Ready s p := by
  refine ⟨inside,used,?_⟩
  by_contra raw
  obtain ⟨positive,-⟩ := threads.occupied p inside used
  obtain ⟨executable,at_⟩ := threads.setup _ positive (threads.occupants p) (by simpa using raw)
  have calm := settled (s.spawner (s.occupant p))
  rw [at_] at calm
  contradiction

theorem childCount_settled {s : Processes} (threads : Threads s) (settled : Settled s) (q : Int) :
    childCount s q = tableSlots.countP fun p => (s.table p).state ≠ .free ∧ (s.table p).parent = q := by
  refine List.countP_congr fun p member => ?_
  rw [decide_eq_true_eq,decide_eq_true_eq]
  unfold Child
  constructor
  · rintro ⟨used,-,names,-⟩; exact ⟨used,names⟩
  · rintro ⟨used,names⟩
    have ready := threads.settled_ready settled ((mem_tableSlots p).mp member) used
    refine ⟨used,ready.2.2,names,fun counting => ?_⟩
    have calm := settled (s.spawner (s.occupant p))
    rw [counting] at calm
    contradiction

theorem process_structure (memory : Int → Entry) (ran : run step actions (initial memory) = some s)
    (roomy : Meets step Roomy actions (initial memory))
    (untangled : Meets step Untangled actions (initial memory)) (settled : Settled s) :
    (∀ p, InTable p → (s.table p).state ≠ .free → 0 ≤ (s.table p).parent →
      InTable (s.table p).parent ∧ (s.table (s.table p).parent).state ≠ .free ∧
      s.occupant (s.table p).parent = s.spawner (s.occupant p)) ∧
    ∀ q, InTable q → (s.table q).state ≠ .free →
      (s.table q).children =
        tableSlots.countP (fun p => (s.table p).state ≠ .free ∧ (s.table p).parent = q) ∧
      ∃ items, Chain (fun p => (s.table p).nextZombie) (-1) (s.table q).firstZombie items ∧
        Back (fun p => (s.table p).prevZombie) (-1) items ∧ items.Nodup ∧
        ∀ z, z ∈ items ↔ InTable z ∧ (s.table z).state = .zombie ∧ (s.table z).parent = q := by
  have preserved : ∀ a s t, Sound s ∧ Strict s → Roomy a s ∧ Untangled a s → step a s = some t →
      Sound t ∧ Strict t := by
    rintro a s t ⟨sound,strict⟩ ok next
    exact ⟨step_sound sound ⟨ok.1,untangled_clean strict sound next ok.2⟩ next,
      step_strict strict sound ok next⟩
  obtain ⟨sound,strict⟩ := run_guarded preserved ⟨initial_sound memory,initial_strict memory⟩
    (roomy.and untangled) ran
  constructor
  · intro p inside used low
    have ready := sound.threads.settled_ready settled inside used
    have parent := strict.parent sound ready
    have process : s.spawner (s.occupant p) ≠ 0 := by
      intro startup
      rw [parent,startup,sound.threads.startup] at low
      omega
    obtain ⟨own,there⟩ := strict.parents p ready process
    rw [parent]
    exact ⟨sound.threads.spawner_inside ready process,there,own⟩
  · intro q inside used
    have ready := sound.threads.settled_ready settled inside used
    refine ⟨(strict.count q ready).trans (by rw [childCount_settled sound.threads settled]),?_⟩
    obtain ⟨items,chain,back,members⟩ := strict.zombieList sound ready
    exact ⟨items,chain,back,chain.nodup,members⟩

theorem settled_of_range {s : Processes} (threads : Threads s)
    (calm : ∀ who ∈ List.range s.next, (s.threads who).spawns = none) : Settled s := by
  intro who
  by_cases born : who < s.next
  · exact calm who (List.mem_range.mpr born)
  · rw [threads.unborn who (by omega)]
    rfl

/-- The process 2 finishes while its child 3 is running, and is then joined: its entry stays,
without a parent, in the list of the process 1 and in its counter. -/
def tangledRun : List Action :=
  spawnAll 0 ++ spawnAll 1 ++ spawnAll 2 ++ [.finish 2 5, .join 1 1, .joinLocked 1]

theorem children_after_join : ∃ s, run step tangledRun (initial zeroed) = some s ∧
    Meets step Roomy tangledRun (initial zeroed) ∧ Settled s ∧ (s.table 0).state = .running ∧
    (s.table 0).children = 1 ∧
    tableSlots.countP (fun p => (s.table p).state ≠ .free ∧ (s.table p).parent = 0) = 0 := by
  have reached : ((run step tangledRun (initial zeroed)).any fun (s : Processes) =>
      decide ((∀ who ∈ List.range s.next, (s.threads who).spawns = none) ∧
        (s.table 0).state = .running ∧ (s.table 0).children = 1 ∧
        tableSlots.countP (fun p => (s.table p).state ≠ .free ∧ (s.table p).parent = 0) = 0)) = true := by
    decide +kernel
  obtain ⟨s,ran,facts⟩ := (Option.any_eq_true _ _).mp reached
  obtain ⟨calm,facts⟩ := decide_eq_true_eq.mp facts
  have roomy : Meets step Roomy tangledRun (initial zeroed) := by decide +kernel
  have clean : Meets step CleanJoin tangledRun (initial zeroed) := by decide +kernel
  have sound : Sound s := run_guarded (fun _ _ _ sound ok next => step_sound sound ok next)
    (initial_sound zeroed) (roomy.and clean) ran
  exact ⟨s,ran,roomy,settled_of_range sound.threads calm,facts⟩

/-- The process 2 has finished with two children, the process 1 has a zombie. -/
def treeRun : List Action :=
  spawnAll 0 ++ spawnAll 1 ++ spawnAll 2 ++ [.finish 3 4] ++ spawnAll 2 ++
    [.join 2 2, .joinLocked 2, .finish 4 6, .join 2 3, .joinLocked 2, .finish 2 5] ++ spawnAll 1

theorem process_structure_tree : ∃ s, run step treeRun (initial zeroed) = some s ∧ Settled s ∧
    (s.table 0).children = 2 ∧ (s.table 1).state = .zombie ∧ s.occupant 0 = s.spawner (s.occupant 1) ∧
    ∃ items, Chain (fun p => (s.table p).nextZombie) (-1) (s.table 0).firstZombie items ∧ 1 ∈ items := by
  have reached : ((run step treeRun (initial zeroed)).any fun (s : Processes) =>
      decide ((∀ who ∈ List.range s.next, (s.threads who).spawns = none) ∧ (s.table 0).children = 2 ∧
        (s.table 0).state = .running ∧ (s.table 1).state = .zombie ∧ (s.table 1).parent = 0)) = true := by
    decide +kernel
  obtain ⟨s,ran,facts⟩ := (Option.any_eq_true _ _).mp reached
  obtain ⟨calm,children,running,zombie,parent⟩ := decide_eq_true_eq.mp facts
  have roomy : Meets step Roomy treeRun (initial zeroed) := by decide +kernel
  have clean : Meets step CleanJoin treeRun (initial zeroed) := by decide +kernel
  have sound : Sound s := run_guarded (fun _ _ _ sound ok next => step_sound sound ok next)
    (initial_sound zeroed) (roomy.and clean) ran
  have settled := settled_of_range sound.threads calm
  obtain ⟨parents,lists⟩ := process_structure zeroed ran roomy (by decide +kernel) settled
  obtain ⟨-,-,own⟩ := parents 1 (by decide) (by simp [zombie]) (by simp [parent])
  obtain ⟨-,items,chain,-,-,members⟩ := lists 0 (by decide) (by simp [running])
  exact ⟨s,ran,settled,children,zombie,by rwa [parent] at own,items,chain,
    (members 1).mpr ⟨by decide,zombie,parent⟩⟩

end Buenos.Proc
