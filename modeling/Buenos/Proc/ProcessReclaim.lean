import Buenos.Proc.ProcessTree

/-! When the entry of a joined process is given back. A join of a zombie without children does it; if
children are left, the entry stays until the caller of the join finishes, as the call that
`process_finish` makes after the last child only turns the joined parent into a zombie again. -/
namespace Buenos.Proc

open Buenos.Foundation

/-- The entry that the children counter of the caller does not include yet. -/
def Phase.uncounted : Phase → Option Int
  | .allocated pid _ | .counting pid => some pid
  | _ => none

/-- The entry is in use by a child of the process in `q`, and counted. -/
def Offspring (s : Processes) (q p : Int) : Prop :=
  (s.table p).state ≠ .free ∧ s.spawner (s.occupant p) = s.occupant q ∧
  (s.threads (s.occupant q)).uncounted ≠ some p

instance (s : Processes) (q p : Int) : Decidable (Offspring s q p) := by
  unfold Offspring; infer_instance

def offspring (s : Processes) (q : Int) : Nat := tableSlots.countP fun p => Offspring s q p

/-- Joined entries wait for children, and no counter is above the number of the children. -/
structure Backed (s : Processes) : Prop where
  running : ∀ p, Ready s p → (s.table p).state = .running → Alive s (s.occupant p)
  parted : ∀ p q, Ready s p → Ready s q → (s.table p).state = .zombie → (s.table q).state = .zombie →
    s.spawner (s.occupant p) ≠ s.occupant q
  count : ∀ q, Ready s q → (s.table q).children ≤ offspring s q
  waits : ∀ q, Ready s q → WasJoined s (s.occupant q) → 0 < (s.table q).children ∧ (s.table q).retval < 0

/-- A join ends on no zombie whose counter is negative, and `process_finish` makes no call for a
joined parent, which is a zombie with one child that the caller has not reaped itself. -/
def GivesBack : Action → Processes → Prop
  | .joinLocked who, s => ∀ pid ∈ (s.threads who).joins,
    (s.table pid).state = .zombie → 0 ≤ (s.table pid).children
  | .finish who _, s =>
    0 ≤ (s.table (s.slot who)).parent → (s.table (s.table (s.slot who)).parent).state = .zombie →
    (s.table (s.table (s.slot who)).parent).children = 1 →
    (s.table (s.table (s.slot who)).parent).retval < 0 →
    s.spawner (s.occupant (s.table (s.slot who)).parent) = who
  | _, _ => True

instance (a : Action) (s : Processes) : Decidable (GivesBack a s) :=
  match a with
  | .joinLocked who => inferInstanceAs (Decidable (∀ pid ∈ (s.threads who).joins,
      (s.table pid).state = .zombie → 0 ≤ (s.table pid).children))
  | .finish who _ => inferInstanceAs (Decidable (0 ≤ (s.table (s.slot who)).parent →
      (s.table (s.table (s.slot who)).parent).state = .zombie →
      (s.table (s.table (s.slot who)).parent).children = 1 →
      (s.table (s.table (s.slot who)).parent).retval < 0 →
      s.spawner (s.occupant (s.table (s.slot who)).parent) = who))
  | .spawn .. | .spawnInit _ | .spawnCount _ | .spawnStart _ | .join .. => isTrue trivial

section Steps
variable {s t : Processes}

theorem initial_backed (memory : Int → Entry) : Backed (initial memory) := by
  have unready : ∀ p, ¬Ready (initial memory) p := by
    rintro p ⟨inside,used,-⟩
    have inside : 0 ≤ p ∧ p < processMaxProcesses := inside
    exact used (by simp [initial,inside])
  exact ⟨fun p ready => absurd ready (unready p),fun p _ ready => absurd ready (unready p),
    fun q ready => absurd ready (unready q),fun q ready => absurd ready (unready q)⟩

theorem offspring_le {lost : List Int} (kept : ∀ p, InTable p → Offspring s q p → Offspring t r p ∨ p ∈ lost) :
    offspring s q ≤ offspring t r + lost.length := by
  refine countP_le_add (by decide) fun p member child => ?_
  simpa using kept p ((mem_tableSlots p).mp member) (by simpa using child)

theorem offspring_mono (kept : ∀ p, InTable p → Offspring s q p → Offspring t r p) : offspring s q ≤ offspring t r := by
  have fewer : offspring s q ≤ offspring t r + ([] : List Int).length :=
    offspring_le fun p inside child => .inl (kept p inside child)
  simpa using fewer

theorem Thins.uncounted (thins : Thins dead s t) (now : (t.threads w).uncounted = some p) :
    (s.threads w).uncounted = some p := by
  cases phase : t.threads w with
  | allocated pid executable =>
    rw [phase] at now
    rw [thins.allocated w pid executable phase]
    exact now
  | counting pid =>
    rw [phase] at now
    rw [(thins.counting w pid).mp phase]
    exact now
  | _ => rw [phase] at now; contradiction

theorem Backed.thin (backed : Backed s) (thins : Thins dead s t)
    (running : ∀ p, Ready s p → ¬dead p → (t.table p).state = .running →
      (s.table p).state = .running ∧ (Alive s (s.occupant p) → Alive t (s.occupant p)))
    (parted : ∀ p q, Ready s p → ¬dead p → Ready s q → ¬dead q → (t.table p).state = .zombie →
      (t.table q).state = .zombie → s.spawner (s.occupant p) ≠ s.occupant q)
    (count : ∀ q, Ready s q → ¬dead q → ∃ lost : List Int,
      (∀ p, InTable p → dead p → Offspring s q p → p ∈ lost) ∧
      (t.table q).children ≤ (s.table q).children - lost.length)
    (waits : ∀ q, Ready s q → ¬dead q → WasJoined t (s.occupant q) →
      0 < (t.table q).children ∧ (t.table q).retval < 0) : Backed t := by
  refine ⟨?_,?_,?_,?_⟩
  · intro p again state
    obtain ⟨made,stays⟩ := (thins.ready p).mp again
    rw [thins.occupant]
    obtain ⟨before,lives⟩ := running p made stays state
    exact lives (backed.running p made before)
  · intro p q again again' zombie zombie'
    obtain ⟨made,stays⟩ := (thins.ready p).mp again
    obtain ⟨made',stays'⟩ := (thins.ready q).mp again'
    rw [thins.occupant,thins.spawner]
    exact parted p q made stays made' stays' zombie zombie'
  · intro q again
    obtain ⟨made,stays⟩ := (thins.ready q).mp again
    obtain ⟨lost,members,children⟩ := count q made stays
    have fewer : offspring s q ≤ offspring t q + lost.length := by
      refine offspring_le fun p inside child => ?_
      by_cases gone : dead p
      · exact .inr (members p inside gone child)
      · obtain ⟨used,mine,counted⟩ := child
        refine .inl ⟨fun free => used ((thins.used p gone inside).mp free),?_,fun now => ?_⟩
        · rw [thins.occupant,thins.spawner]
          exact mine
        · rw [thins.occupant] at now
          exact counted (thins.uncounted now)
    have enough := backed.count q made
    omega
  · intro q again joined
    obtain ⟨made,stays⟩ := (thins.ready q).mp again
    rw [thins.occupant] at joined
    exact waits q made stays joined

theorem Backed.quiet (backed : Backed s) (quiet : Quiet s t) : Backed t := by
  refine backed.thin quiet.drops.toThins ?_ ?_ ?_ ?_
  · intro p _ _ state
    rw [quiet.table] at state
    exact ⟨state,quiet.alive⟩
  · intro p q made _ made' _ zombie zombie'
    rw [quiet.table] at zombie zombie'
    exact backed.parted p q made made' zombie zombie'
  · exact fun q _ _ => ⟨[],fun _ _ gone => gone.elim,by simp [quiet.table]⟩
  · intro q made _ joined
    unfold WasJoined at joined
    rw [quiet.joins] at joined
    rw [quiet.table]
    exact backed.waits q made joined

/-! ### Spawning -/

theorem Backed.allocated (backed : Backed s) (threads : Threads s) (does : Allocates who pid executable s t)
    (idle : s.threads who = .idle) : Backed t := by
  have old := threads.occupants
  have ready := does.ready threads
  refine ⟨?_,?_,?_,?_⟩
  · intro p again running
    have made := (ready p).mp again
    rw [does.table p (does.apart made)] at running
    rw [does.alive threads idle,does.occupant p (does.apart made)]
    exact .inl (backed.running p made running)
  · intro p q again again' zombie zombie'
    have made := (ready p).mp again
    have made' := (ready q).mp again'
    rw [does.table p (does.apart made)] at zombie
    rw [does.table q (does.apart made')] at zombie'
    rw [does.occupant p (does.apart made),does.occupant q (does.apart made'),does.spawner _ (old p)]
    exact backed.parted p q made made' zombie zombie'
  · intro q again
    have made := (ready q).mp again
    rw [does.table q (does.apart made)]
    have kept : offspring s q ≤ offspring t q := by
      refine offspring_mono fun p _ ⟨used,mine,counted⟩ => ?_
      have other : p ≠ pid := by rintro rfl; exact used does.free
      unfold Offspring
      rw [does.table p other,does.occupant p other,does.occupant q (does.apart made),does.spawner _ (old p)]
      refine ⟨used,mine,?_⟩
      by_cases caller : s.occupant q = who
      · rw [caller,does.mine]
        exact fun same => other (Option.some.inj same).symm
      · rwa [does.phase _ caller]
    have enough := backed.count q made
    omega
  · intro q again joined
    have made := (ready q).mp again
    rw [does.occupant q (does.apart made),does.joined] at joined
    rw [does.table q (does.apart made)]
    exact backed.waits q made joined

theorem Backed.initialised (backed : Backed s) (sound : Sound s) (does : Initialises who pid executable s t) :
    Backed t := by
  have threads := sound.threads
  have ready := does.ready threads
  obtain ⟨_,positive,_,mine,absent⟩ := threads.spawning who pid does.spawning
  have busy := threads.spawning_running does.spawning
  have zombies : ∀ p, Ready t p → (t.table p).state = .zombie → Ready s p ∧ (s.table p).state = .zombie := by
    intro p again zombie
    rw [does.state] at zombie
    refine ⟨((ready p).mp again).resolve_right ?_,zombie⟩
    rintro rfl
    rw [busy] at zombie
    contradiction
  refine ⟨?_,?_,?_,?_⟩
  · intro p again running
    rw [does.alive,does.occupant]
    rcases (ready p).mp again with made | rfl
    · rw [does.state] at running
      exact backed.running p made running
    · exact ⟨positive,threads.occupants p,by simp [absent]⟩
  · intro p q again again' zombie zombie'
    obtain ⟨made,dead⟩ := zombies p again zombie
    obtain ⟨made',dead'⟩ := zombies q again' zombie'
    rw [does.occupant,does.spawner]
    exact backed.parted p q made made' dead dead'
  · intro q again
    by_cases same : q = pid
    · subst same
      rw [does.here]
      exact Int.natCast_nonneg _
    · have made := ((ready q).mp again).resolve_right same
      rw [does.table q same]
      have kept : offspring s q ≤ offspring t q := by
        refine offspring_mono fun p _ ⟨used,own,counted⟩ => ?_
        unfold Offspring
        rw [does.state,does.occupant,does.spawner,does.phase]
        refine ⟨used,own,?_⟩
        split
        · next caller =>
          rw [caller,does.before] at counted
          exact counted
        · exact counted
      have enough := backed.count q made
      omega
  · intro q again joined
    rw [does.occupant,does.joined] at joined
    by_cases same : q = pid
    · subst same
      exact absurd joined (does.unjoined threads sound.log)
    · rw [does.table q same]
      exact backed.waits q (((ready q).mp again).resolve_right same) joined

/-- The counter and the number of children rise together. -/
theorem Counts.offspring (counts : Counts who pid s t) (threads : Threads s) (q : Int) :
    (offspring s q : Int) + (if 0 ≤ q ∧ q = s.slot who then 1 else 0) ≤ offspring t q := by
  have spawns : (s.threads who).spawns = some pid := by simp [counts.before,Phase.spawns]
  obtain ⟨inside,_,_,mine,_⟩ := threads.spawning who pid spawns
  have running := threads.spawning_running spawns
  have others : ∀ p, p ≠ pid → (Offspring t q p ↔ Offspring s q p) := by
    intro p apart
    unfold Offspring
    rw [(counts.fields p).1,counts.occupant,counts.spawner,counts.phase]
    split
    · next caller => simp [caller,counts.before,Phase.uncounted,Ne.symm apart]
    · rfl
  have fresh : s.occupant q = who → ¬Offspring s q pid := by
    rintro own ⟨-,-,counted⟩
    rw [own,counts.before] at counted
    exact counted rfl
  split
  · next own =>
    have process : 0 < who := by
      rw [Nat.pos_iff_ne_zero]
      rintro rfl
      rw [threads.startup] at own
      omega
    have caller : s.occupant q = who := by
      rw [own.2]
      exact (threads.alive who ⟨process,threads.born_lt (by simp [counts.before]),by simp [counts.before]⟩).1
    have now : Offspring t q pid := by
      refine ⟨by rw [(counts.fields pid).1,running]; simp,?_,?_⟩
      · rw [counts.occupant,counts.spawner,mine,caller]
      · rw [counts.occupant,caller,counts.phase,if_pos rfl]
        simp [Phase.uncounted]
    have more : Proc.offspring t q = Proc.offspring s q + 1 := by
      refine countP_add_one (x := pid) (by decide) ((mem_tableSlots pid).mpr inside)
        (by simpa using fresh caller) (by simpa using now) fun p _ apart => ?_
      simpa using others p apart
    omega
  · next other =>
    have kept : Proc.offspring s q ≤ Proc.offspring t q := by
      refine offspring_mono fun p _ child => ?_
      by_cases here : p = pid
      · subst here
        refine absurd child (fresh ?_)
        exact child.2.1.symm.trans mine
      · exact (others p here).mpr child
    omega

theorem Backed.counted (backed : Backed s) (sound : Sound s) (at_ : s.threads who = .counting pid) :
    Backed (spawnCount who pid s) := by
  have counts := spawnCount_counts at_
  have ready := counts.ready
  refine ⟨?_,?_,?_,?_⟩
  · intro p again state
    rw [(counts.fields p).1] at state
    rw [counts.alive,counts.occupant]
    exact backed.running p ((ready p).mp again) state
  · intro p q again again' zombie zombie'
    rw [(counts.fields p).1] at zombie
    rw [(counts.fields q).1] at zombie'
    rw [counts.occupant,counts.spawner]
    exact backed.parted p q ((ready p).mp again) ((ready q).mp again') zombie zombie'
  · intro q again
    have made := (ready q).mp again
    have enough := backed.count q made
    have more := counts.offspring sound.threads q
    rw [(counts.fields q).2.2]
    omega
  · intro q again joined
    have made := (ready q).mp again
    unfold WasJoined at joined
    rw [counts.joins,counts.occupant] at joined
    obtain ⟨children,retval⟩ := backed.waits q made joined
    rw [(counts.fields q).2.2,counts.retval]
    refine ⟨?_,retval⟩
    split <;> omega

/-! ### Joining -/

theorem Backed.join_freed (backed : Backed s) (sound : Sound s) (at_ : s.threads who = .entering pid)
    (childless : (s.table pid).children = 0) : Backed (joinZombie who pid s) := by
  have threads := sound.threads
  obtain ⟨ready,mine,-⟩ := sound.waiters.joining who pid (by simp [at_,Phase.joins])
  have fields := joinZombie_freed who childless
  refine backed.thin (joinZombie_drops at_ childless).toThins ?_ ?_ ?_ ?_
  · intro p _ apart running
    rw [(fields p).1,if_neg apart] at running
    exact ⟨running,joinZombie_alive who pid⟩
  · intro p q made apart made' apart' zombie zombie'
    rw [(fields p).1,if_neg apart] at zombie
    rw [(fields q).1,if_neg apart'] at zombie'
    exact backed.parted p q made made' zombie zombie'
  · intro q made apart
    have caller : s.spawner (s.occupant pid) = s.occupant q → q = s.slot who := by
      intro same
      rw [← (threads.occupied q made.1 made.2.1).2,← same,mine]
    by_cases own : q = s.slot who
    · refine ⟨[pid],fun p _ here _ => List.mem_singleton.mpr here,?_⟩
      rw [((fields q).2 apart).2.1,if_pos own]
      simp
    · refine ⟨[],?_,by simp [(fields q).2 apart,own]⟩
      rintro p _ rfl child
      exact absurd (caller child.2.1) own
  · intro q made apart joined
    have before := joinZombie_joined who threads ready made apart joined
    obtain ⟨children,retval⟩ := backed.waits q made before
    have other : q ≠ s.slot who := by
      rintro rfl
      by_cases startup : who = 0
      · subst startup
        have low := made.1.1
        rw [threads.startup] at low
        omega
      · have running := (threads.alive who ⟨by omega,threads.born_lt (by simp [at_]),by simp [at_]⟩).2
        rw [(sound.entries.joined _ made before).2] at running
        contradiction
    rw [((fields q).2 apart).2.1,((fields q).2 apart).2.2,if_neg other]
    exact ⟨by omega,retval⟩

theorem Backed.join_kept (backed : Backed s) (sound : Sound s) (at_ : s.threads who = .entering pid)
    (positive : 0 < (s.table pid).children) : Backed (joinZombie who pid s) := by
  have threads := sound.threads
  obtain ⟨ready,-,-⟩ := sound.waiters.joining who pid (by simp [at_,Phase.joins])
  have childless : (s.table pid).children ≠ 0 := by omega
  have fields := joinZombie_kept who childless
  refine backed.thin (joinZombie_thins at_ childless) ?_ ?_ ?_ ?_
  · intro p _ _ running
    exact ⟨(fields p).1.symm.trans running,joinZombie_alive who pid⟩
  · intro p q made _ made' _ zombie zombie'
    exact backed.parted p q made made' ((fields p).1.symm.trans zombie) ((fields q).1.symm.trans zombie')
  · exact fun q _ _ => ⟨[],fun _ _ gone => gone.elim,by simp [fields]⟩
  · intro q made _ joined
    rw [(fields q).2.1,(fields q).2.2.1]
    by_cases here : q = pid
    · subst here
      simpa using positive
    · rw [if_neg here]
      exact backed.waits q made (joinZombie_joined who threads ready made here joined)

theorem Backed.join (backed : Backed s) (sound : Sound s) (at_ : s.threads who = .entering pid)
    (counted : (s.table pid).state = .zombie → 0 ≤ (s.table pid).children) : Backed (joinLocked who pid s) := by
  unfold joinLocked
  split
  case isFalse => exact backed.quiet (sleep_quiet at_)
  next zombie =>
  have low := counted zombie
  by_cases childless : (s.table pid).children = 0
  · exact backed.join_freed sound at_ childless
  · exact backed.join_kept sound at_ (by omega)

/-! ### Finishing -/

theorem modify_retval (s : Processes) (q : Int) {f : Entry → Entry} (same : ∀ e, (f e).retval = e.retval) (p : Int) :
    ((s.modify q f).table p).retval = (s.table p).retval := by
  rw [modify_table]
  split
  · exact same _
  · rfl

theorem linkZombie_retval (parent pid : Int) (s : Processes) (p : Int) :
    ((linkZombie parent pid s).table p).retval = (s.table p).retval := by
  unfold linkZombie
  dsimp only
  refine (modify_retval _ parent (by intro _; rfl) p).trans ?_
  split
  · refine (modify_retval _ _ (by intro _; rfl) p).trans ?_
    exact (modify_retval _ pid (by intro _; rfl) p).trans (modify_retval s pid (by intro _; rfl) p)
  · exact (modify_retval _ pid (by intro _; rfl) p).trans (modify_retval s pid (by intro _; rfl) p)

section Once
variable (once : 0 ≤ parent → (s.table parent).state = .zombie →
  ¬((s.table parent).children - 1 = 0 ∧ (s.table parent).retval < 0))
include once

theorem giveUp_once (lone : 0 ≤ parent ∧ (s.table parent).state = .zombie) (gone : giveUp again parent pid s = some t) :
    t = sleepqWake pid ((s.modify parent fun e => { e with children := e.children - 1 }).modify pid
      fun e => { e with state := .free }) := by
  unfold giveUp at gone
  rw [if_pos lone] at gone
  dsimp only at gone
  rw [if_neg (by simpa using once lone.1 lone.2)] at gone
  exact (Option.some.inj gone).symm

theorem giveUp_retval (gone : giveUp again parent pid s = some t) (p : Int) :
    (t.table p).retval = (s.table p).retval := by
  by_cases lone : 0 ≤ parent ∧ (s.table parent).state = .zombie
  · rw [giveUp_once once lone gone,sleepqWake_table,modify_table,modify_table]
    split <;> split <;> rfl
  · unfold giveUp at gone
    rw [if_neg lone] at gone
    split at gone
    · cases gone
      rw [sleepqWake_table,linkZombie_retval]
    · cases gone
      rw [sleepqWake_table,modify_table]
      split <;> rfl

end Once

theorem Leaving.giveUp_leaves (leaving : Leaving who (s.slot who) (leavingState who v items s))
    (idle : s.threads who = .idle) (running : (s.table (s.slot who)).state = .running) (outside : s.slot who ∉ items)
    (parent : q = (s.table (s.slot who)).parent)
    (once : 0 ≤ q → ((leavingState who v items s).table q).state = .zombie →
      ¬(((leavingState who v items s).table q).children - 1 = 0 ∧ ((leavingState who v items s).table q).retval < 0))
    (gone : Proc.giveUp again q (s.slot who) (leavingState who v items s) = some t) :
    Leaves who items (0 ≤ q ∧ ((leavingState who v items s).table q).state = .zombie) s t := by
  by_cases lone : 0 ≤ q ∧ ((leavingState who v items s).table q).state = .zombie
  · rw [giveUp_once once lone gone]
    refine Leaves.wake (leaves_orphan idle running outside parent lone.2 lone fun p => ?_) (leaving.asleep _)
    by_cases here : p = q
    · subst here; simp
    · simp [here]
  · subst parent
    exact leaving.giveUp_zombie idle outside lone gone

/-- The list of a running process: its zombie children, and no children of others in the table. -/
theorem Backed.zombieList (backed : Backed s) (sound : Sound s) (living : Alive s who) (ready : Ready s (s.slot who))
    (chain : Chain (fun p => (s.table p).nextZombie) (-1) (s.table (s.slot who)).firstZombie items) :
    (∀ z, Ready s z → (s.table z).state = .zombie → s.spawner (s.occupant z) = who → z ∈ items) ∧
    ∀ z ∈ items, ∀ q, Ready s q → s.spawner (s.occupant z) = s.occupant q → q = s.slot who := by
  obtain ⟨lists,list⟩ := sound.lists
  obtain ⟨others,at_⟩ := Option.ne_none_iff_exists'.mp (list.ready _ ready)
  obtain rfl : others = items := ((list.chain _ others at_).1).unique chain
  constructor
  · intro z made zombie mine
    obtain ⟨whole,there,member⟩ := list.mine z made zombie (by rwa [mine])
    rw [mine,at_] at there
    cases there
    exact member
  · intro z member q made names
    obtain ⟨inner,zombie,-,-⟩ := list.members _ others at_ z member
    cases state : (s.table q).state with
    | free => exact absurd state made.2.1
    | zombie => exact absurd names (backed.parted z q inner made zombie state)
    | running =>
      have lives := backed.running q made state
      obtain ⟨whole,there,member'⟩ := list.mine z inner zombie (by rwa [names])
      rw [names,(sound.threads.occupied q made.1 made.2.1).2] at there
      exact list.disjoint _ _ _ _ z there at_ member' member

/-- The entry in which the spawner of the caller is found is the one that its parent field names. -/
theorem Sound.spawner_entry (sound : Sound s) (idle : s.threads who = .idle) (process : 0 < who) (made : Ready s q)
    (names : s.spawner who = s.occupant q) : q = (s.table (s.slot who)).parent := by
  have threads := sound.threads
  have living : Alive s who := ⟨process,threads.born_lt (by simp [idle]),by simp [idle]⟩
  obtain ⟨mine,-⟩ := threads.alive who living
  have parent := sound.entries.parent _ (threads.idle_ready idle process)
    (by rw [mine]; exact sound.log.unfinished (by simp [idle]))
  rw [mine] at parent
  rw [parent,names,(threads.occupied q made.1 made.2.1).2]

section Leave
variable (backed : Backed s) (sound : Sound s) (leaves : Leaves who items orphan s t) (idle : s.threads who = .idle)
  (process : 0 < who)
  (chain : Chain (fun p => (s.table p).nextZombie) (-1) (s.table (s.slot who)).firstZombie items)
include backed sound leaves idle process chain

theorem Backed.leave_parted (lone : InTable (s.table (s.slot who)).parent →
      (s.table (s.table (s.slot who)).parent).state = .zombie → (s.table (s.slot who)).parent ∉ items → orphan)
    (made : Ready s p) (made' : Ready s q) (stays : ¬(p ∈ items ∨ p = s.slot who ∧ orphan))
    (stays' : ¬(q ∈ items ∨ q = s.slot who ∧ orphan)) (zombie : (t.table p).state = .zombie)
    (zombie' : (t.table q).state = .zombie) : s.spawner (s.occupant p) ≠ s.occupant q := by
  have living : Alive s who := ⟨process,sound.threads.born_lt (by simp [idle]),by simp [idle]⟩
  obtain ⟨mine,-⟩ := sound.threads.alive who living
  obtain ⟨listed,-⟩ := backed.zombieList sound living (sound.threads.idle_ready idle process) chain
  intro names
  rw [leaves.state p stays] at zombie
  rw [leaves.state q stays'] at zombie'
  split at zombie <;> split at zombie'
  · next here there =>
    subst here there
    rw [mine] at names
    exact sound.threads.apart who living.1 living.2.1 (by rw [names])
  · next here there =>
    subst here
    rw [mine] at names
    have up := sound.spawner_entry idle process made' names
    subst up
    exact stays (.inr ⟨rfl,lone made'.1 zombie' fun member => stays' (.inl member)⟩)
  · next here there =>
    subst there
    rw [mine] at names
    exact stays (.inl (listed p made zombie names))
  · exact backed.parted p q made made' zombie zombie' names

/-- An entry that stays counts at least the children that it loses. -/
theorem Backed.leave_lost (made : Ready s q) (stays : ¬(q ∈ items ∨ q = s.slot who ∧ orphan)) : ∃ lost : List Int,
    (∀ p, InTable p → (p ∈ items ∨ p = s.slot who ∧ orphan) → Offspring s q p → p ∈ lost) ∧
    (t.table q).children = (s.table q).children - lost.length := by
  have living : Alive s who := ⟨process,sound.threads.born_lt (by simp [idle]),by simp [idle]⟩
  obtain ⟨mine,-⟩ := sound.threads.alive who living
  obtain ⟨-,others⟩ := backed.zombieList sound living (sound.threads.idle_ready idle process) chain
  by_cases own : q = s.slot who
  · subst own
    refine ⟨items,?_,by rw [leaves.own]⟩
    rintro p _ (member | here) -
    · exact member
    · exact absurd (.inr ⟨rfl,here.2⟩) stays
  have unlisted : ∀ p ∈ items, ¬Offspring s q p := fun p member child => own (others p member q made child.2.1)
  by_cases up : orphan ∧ q = (s.table (s.slot who)).parent
  · refine ⟨[s.slot who],?_,?_⟩
    · rintro p _ (member | here) child
      · exact absurd child (unlisted p member)
      · exact List.mem_singleton.mpr here.1
    · rw [up.2,leaves.above up.1]
      simp
  · refine ⟨[],?_,?_⟩
    · rintro p _ (member | ⟨rfl,alone⟩) child
      · exact absurd child (unlisted p member)
      · have names := child.2.1
        rw [mine] at names
        exact absurd ⟨alone,sound.spawner_entry idle process made names⟩ up
    · rw [leaves.others q own fun alone same => up ⟨alone,same⟩]
      simp

theorem Backed.leave (lone : InTable (s.table (s.slot who)).parent →
      (s.table (s.table (s.slot who)).parent).state = .zombie → (s.table (s.slot who)).parent ∉ items → orphan)
    (retval : ∀ p, p ∉ items → p ≠ s.slot who → (t.table p).retval = (s.table p).retval)
    (once : orphan → (s.table (s.table (s.slot who)).parent).retval < 0 →
      (s.table (s.table (s.slot who)).parent).children ≠ 1) : Backed t := by
  have threads := sound.threads
  have living : Alive s who := ⟨process,threads.born_lt (by simp [idle]),by simp [idle]⟩
  obtain ⟨-,running⟩ := threads.alive who living
  refine backed.thin (leaves.drops running).toThins ?_ ?_ ?_ ?_
  · intro p made stays state
    rw [leaves.state p stays] at state
    split at state
    · contradiction
    next other =>
    refine ⟨state,fun lives => (leaves.alive _).mpr ⟨lives,fun same => other ?_⟩⟩
    rw [← same,(threads.occupied p made.1 made.2.1).2]
  · exact fun p q made stays made' stays' zombie zombie' =>
      backed.leave_parted sound leaves idle process chain lone made made' stays stays' zombie zombie'
  · intro q made stays
    obtain ⟨lost,gone,count⟩ := backed.leave_lost sound leaves idle process chain made stays
    exact ⟨lost,gone,count.le⟩
  · intro q made stays joined
    unfold WasJoined at joined
    rw [leaves.joins] at joined
    obtain ⟨children,negative⟩ := backed.waits q made joined
    have own : q ≠ s.slot who := by
      rintro rfl
      have zombie := (sound.entries.joined _ made joined).2
      rw [running] at zombie
      contradiction
    rw [retval q (fun member => stays (.inl member)) own]
    refine ⟨?_,negative⟩
    by_cases up : orphan ∧ q = (s.table (s.slot who)).parent
    · obtain ⟨alone,rfl⟩ := up
      have last := once alone negative
      rw [leaves.above alone]
      omega
    · rw [leaves.others q own fun alone same => up ⟨alone,same⟩]
      exact children

end Leave

theorem Backed.finish (backed : Backed s) (sound : Sound s) (idle : s.threads who = .idle) (process : 0 < who)
    (ok : GivesBack (.finish who v) s) (finished : processFinish who v s = some t) : Backed t := by
  have threads := sound.threads
  have living : Alive s who := ⟨process,threads.born_lt (by simp [idle]),by simp [idle]⟩
  obtain ⟨-,running⟩ := threads.alive who living
  obtain ⟨items,outside,leaving,chain,reaped⟩ := sound.finish_reap idle process v
  have gone := (processFinish_reaped reaped).symm.trans finished
  have listed := (backed.zombieList sound living (threads.idle_ready idle process) chain).1
  have once : 0 ≤ (s.table (s.slot who)).parent →
      ((leavingState who v items s).table (s.table (s.slot who)).parent).state = .zombie →
      ¬((s.table (s.table (s.slot who)).parent).children = 1 ∧
        (s.table (s.table (s.slot who)).parent).retval < 0) := by
    rintro low zombie ⟨last,negative⟩
    obtain ⟨unlisted,-,same⟩ := leavingState_zombie running zombie
    rw [same] at zombie
    have mine := ok low zombie last negative
    have inside := (leaving.parent_inside (by rw [leavingState_table,if_neg outside,if_pos rfl]; exact low)).2
    rw [leavingState_table,if_neg outside,if_pos rfl] at inside
    exact unlisted (listed _ (threads.zombie_built inside zombie) zombie mine)
  have once' : 0 ≤ (s.table (s.slot who)).parent →
      ((leavingState who v items s).table (s.table (s.slot who)).parent).state = .zombie →
      ¬(((leavingState who v items s).table (s.table (s.slot who)).parent).children - 1 = 0 ∧
        ((leavingState who v items s).table (s.table (s.slot who)).parent).retval < 0) := by
    rintro low zombie ⟨last,negative⟩
    rw [(leavingState_zombie running zombie).2.2] at last negative
    exact once low zombie ⟨by omega,negative⟩
  refine backed.leave sound (leaving.giveUp_leaves idle running outside rfl once' gone) idle process chain ?_ ?_ ?_
  · intro inside zombie unlisted
    refine ⟨inside.1,?_⟩
    have apart : (s.table (s.slot who)).parent ≠ s.slot who := by
      intro same
      rw [same,running] at zombie
      contradiction
    rw [leavingState_table,if_neg unlisted,if_neg apart]
    exact zombie
  · intro p unlisted apart
    rw [giveUp_retval once' gone,leavingState_table,if_neg unlisted,if_neg apart]
  · exact fun alone negative last => once alone.1 alone.2 ⟨last,negative⟩

theorem step_backed (backed : Backed s) (sound : Sound s) (roomy : Roomy a s) (ok : GivesBack a s)
    (next : step a s = some t) : Backed t := by
  cases step_stepped next with
  | spawn who executable idle =>
    obtain ⟨pid,does⟩ := sound.threads.allocates idle executable roomy
    exact backed.allocated sound.threads does idle
  | spawnInit who pid executable at_ => exact backed.initialised sound (spawnInit_initialises at_)
  | spawnCount who pid at_ => exact backed.counted sound at_
  | spawnStart who pid at_ => exact backed.quiet (spawnStart_quiet sound.threads at_)
  | join who pid idle => exact backed.quiet (processJoin_quiet pid idle)
  | joinLocked who pid at_ => exact backed.join sound at_ (ok pid (by simp [at_,Phase.joins]))
  | finish who retval _ idle process finished => exact backed.finish sound idle process ok finished

/-- A joined entry waits for a child that has not finished. -/
theorem Backed.waiting (backed : Backed s) (sound : Sound s) (ready : Ready s q) (joined : WasJoined s (s.occupant q)) :
    ∃ c, 0 < c ∧ c < s.next ∧ s.spawner c = s.occupant q ∧ s.threads c ≠ .finished := by
  have threads := sound.threads
  have zombie := (sound.entries.joined q ready joined).2
  have some_ : 0 < offspring s q := by
    have children := (backed.waits q ready joined).1
    have enough := backed.count q ready
    omega
  obtain ⟨p,member,child⟩ := List.countP_pos_iff.mp some_
  obtain ⟨used,mine,-⟩ : Offspring s q p := by simpa using child
  have inside := (mem_tableSlots p).mp member
  have born := threads.occupied p inside used
  refine ⟨s.occupant p,born.1,threads.occupants p,mine,fun past => ?_⟩
  have made : Ready s p := ⟨inside,used,threads.built _ born.1 (by simp [past])⟩
  cases state : (s.table p).state with
  | free => exact used state
  | running => exact (backed.running p made state).2.2 past
  | zombie => exact backed.parted p q made ready state zombie mine

end Steps

/-! ### Runs -/

theorem slots_reclaimed (memory : Int → Entry) (ran : run step actions (initial memory) = some s)
    (roomy : Meets step Roomy actions (initial memory))
    (clean : Meets step CleanJoin actions (initial memory))
    (gives : Meets step GivesBack actions (initial memory)) :
    ∀ j ∈ s.joins, (∀ c, 0 < c → c < s.next → s.spawner c = j.child → s.threads c = .finished) →
      ∀ p, InTable p → s.occupant p = j.child → (s.table p).state = .free := by
  have preserved : ∀ a s t, Sound s ∧ Backed s → (Roomy a s ∧ CleanJoin a s) ∧ GivesBack a s →
      step a s = some t → Sound t ∧ Backed t := by
    rintro a s t ⟨sound,backed⟩ ⟨ok,gives⟩ next
    exact ⟨step_sound sound ok next,step_backed backed sound ok.1 gives next⟩
  obtain ⟨sound,backed⟩ := run_guarded preserved ⟨initial_sound memory,initial_backed memory⟩
    ((roomy.and clean).and gives) ran
  intro j member finished p inside mine
  by_contra used
  have past := sound.log.past j member
  have ready : Ready s p := by
    refine ⟨inside,used,?_⟩
    rw [mine]
    exact sound.threads.built _ past.1 (by simp [past.2.2])
  obtain ⟨c,positive,small,names,lives⟩ := backed.waiting sound ready (by rw [mine]; exact List.mem_map_of_mem member)
  exact lives (finished c positive small (by rw [names,mine]))

/-- The process 3 is joined by 2 while its only child 4 is running; 2 reaps it and then 4 finishes. -/
def lateRun : List Action :=
  spawnAll 0 ++ spawnAll 1 ++ spawnAll 2 ++ spawnAll 3 ++
    [.finish 3 5, .join 2 2, .joinLocked 2, .finish 2 0, .finish 4 0]

theorem slots_reclaimed_late : ∃ s, run step lateRun (initial zeroed) = some s ∧ s.joins = [⟨2, 2, 3, 5⟩] ∧
    s.spawner 4 = 3 ∧ s.threads 4 = .finished ∧ s.occupant 2 = 3 ∧ (s.table 2).state = .free := by
  have reached : ((run step lateRun (initial zeroed)).any fun (s : Processes) =>
      decide (s.joins = [⟨2, 2, 3, 5⟩] ∧ s.spawner 4 = 3 ∧ s.threads 4 = .finished ∧ s.occupant 2 = 3 ∧
        ∀ c ∈ List.range s.next, s.spawner c = 3 → s.threads c = .finished)) = true := by decide +kernel
  obtain ⟨s,ran,facts⟩ := (Option.any_eq_true _ _).mp reached
  obtain ⟨joins,spawner,past,occupant,finished⟩ := of_decide_eq_true facts
  have free := slots_reclaimed zeroed ran (by decide +kernel) (by decide +kernel) (by decide +kernel)
    ⟨2, 2, 3, 5⟩ (by simp [joins]) (fun c _ small => finished c (List.mem_range.mpr small)) 2 (by decide) occupant
  exact ⟨s,ran,joins,spawner,past,occupant,free⟩

/-- The process 2 is joined while its only child 3 is running; then the child finishes. -/
def leakedRun : List Action := tangledRun ++ [.finish 3 0]

theorem slot_leaked : ∃ s, run step leakedRun (initial zeroed) = some s ∧
    Meets step Roomy leakedRun (initial zeroed) ∧ s.joins = [⟨1, 1, 2, 5⟩] ∧
    (∀ c ∈ List.range s.next, s.spawner c = 2 → s.threads c = .finished) ∧
    s.occupant 1 = 2 ∧ (s.table 1).state = .zombie := by
  have reached : ((run step leakedRun (initial zeroed)).any fun (s : Processes) =>
      decide (s.joins = [⟨1, 1, 2, 5⟩] ∧ (∀ c ∈ List.range s.next, s.spawner c = 2 → s.threads c = .finished) ∧
        s.occupant 1 = 2 ∧ (s.table 1).state = .zombie)) = true := by decide +kernel
  obtain ⟨s,ran,facts⟩ := (Option.any_eq_true _ _).mp reached
  exact ⟨s,ran,by decide +kernel,of_decide_eq_true facts⟩

end Buenos.Proc
