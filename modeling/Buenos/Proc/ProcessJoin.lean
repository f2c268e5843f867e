import Buenos.Proc.ProcessFinish
import Buenos.Proc.ProcessSpawn

/-! What `process_join` returns, over every run whose joins pass their check only on
children of the caller. -/
namespace Buenos.Proc

open Buenos.Foundation

section Steps
variable {s : Processes}

theorem Sound.refuse (sound : Sound s) (idle : s.threads who = .idle) :
    Sound (s.goto who (afterJoin who)) := by
  unfold afterJoin
  split
  · next startup => subst startup; exact sound.halt (by simp [idle]) (by simp [idle])
  · exact sound.goto_plain (by simp [idle]) (by simp [idle]) (by simp [idle]) (by simp [idle]) (by simp)
      rfl rfl

/-- The check passes on an entry whose process was spawned by the caller. -/
theorem Sound.enter (sound : Sound s) (idle : s.threads who = .idle) (checked : joinCheck s who pid = true)
    (used : (s.table pid).state ≠ .free) (built : s.built (s.occupant pid) = true)
    (mine : s.spawner (s.occupant pid) = who) : Sound (s.goto who (.entering pid)) := by
  have threads := sound.threads
  have checked : 0 ≤ pid ∧ pid < processMaxProcesses ∧ (s.table pid).parent = s.slot who := by
    simpa [joinCheck] using checked
  have ready : Ready s pid := ⟨⟨checked.1,checked.2.1⟩,used,built⟩
  refine sound.goto (threads.born_lt (by simp [idle])) (by simp [idle]) (by simp [idle]) (by simp)
    (fun process => threads.built who process (by simp [idle])) ?_ (by simp [Phase.spawns]) (by simp) ?_ ?_
  · intro w q _ spawning same
    have := (threads.spawning w q spawning).2.2.2.2
    simp [same,idle] at this
  · intro q same
    obtain rfl : pid = q := by simpa [Phase.joins] using same
    refine ⟨ready,mine,fun joined => ?_⟩
    -- a joined process has no parent, and the startup thread joins only once
    have orphan := (sound.entries.joined pid ready joined).1
    rw [checked.2.2] at orphan
    by_cases startup : who = 0
    · obtain ⟨j,member,same⟩ := List.mem_map.mp joined
      have caller := (sound.log.sound j member).1
      rw [same,mine,startup] at caller
      have finished := sound.log.startup j member caller.symm
      rw [← startup,idle] at finished
      contradiction
    · have := (threads.slots who (by omega) (threads.born_lt (by simp [idle]))).1
      omega
  · intro q member
    have := sound.waiters.queue q who member
    simp [idle] at this

def marked (who : Nat) (pid : Int) (s : Processes) : Processes :=
  { (s.modify pid fun e => { e with retval := -1, parent := -1 }).goto who (afterJoin who) with
    joins := ⟨who, pid, s.occupant pid, (s.table pid).retval⟩ :: s.joins }

theorem joinZombie_eq (who : Nat) (pid : Int) (s : Processes) : joinZombie who pid s =
    if (s.table pid).children = 0 then processReset pid (unlinkZombie (s.slot who) pid
      ((marked who pid s).modify (s.slot who) fun e => { e with children := e.children - 1 }))
    else marked who pid s := by
  unfold joinZombie
  dsimp only
  have same : ((s.modify pid fun e => { e with retval := -1, parent := -1 }).table pid).children =
      (s.table pid).children := by simp
  rw [same]
  split
  · unfold unlinkZombie
    dsimp only
    change _ = processReset pid (if ((((s.modify pid fun e => { e with retval := -1, parent := -1 }).modify
      (s.slot who) fun e => { e with children := e.children - 1 }).table (s.slot who)).firstZombie = pid) then _ else _)
    split
    · split <;> (split <;> first | rfl | contradiction)
    · split <;> (split <;> first | rfl | contradiction)
  · rfl

theorem marked_table (who : Nat) (s : Processes) (apart : p ≠ pid) : (marked who pid s).table p = s.table p := by
  simp [marked,Processes.goto,apart]

theorem marked_fields (who : Nat) (pid : Int) (s : Processes) (p : Int) :
    ((marked who pid s).table p).state = (s.table p).state ∧
    ((marked who pid s).table p).firstZombie = (s.table p).firstZombie ∧
    ((marked who pid s).table p).nextZombie = (s.table p).nextZombie ∧
    ((marked who pid s).table p).prevZombie = (s.table p).prevZombie := by
  by_cases same : p = pid
  · subst same; simp [marked,Processes.goto]
  · simp [marked_table who s same]

theorem marked_parent (who : Nat) (pid : Int) (s : Processes) : ((marked who pid s).table pid).parent = -1 := by
  simp [marked,Processes.goto]

theorem marked_threads (who : Nat) (pid : Int) (s : Processes) (w : Nat) :
    (marked who pid s).threads w = if w = who then afterJoin who else s.threads w :=
  goto_threads _ who w _

theorem marked_joined (who : Nat) (pid : Int) (s : Processes) (c : Nat) :
    WasJoined (marked who pid s) c ↔ c = s.occupant pid ∨ WasJoined s c := by
  simp [WasJoined,marked]

theorem marked_ready (who : Nat) (pid : Int) (s : Processes) (p : Int) : Ready (marked who pid s) p ↔ Ready s p := by
  unfold Ready
  rw [(marked_fields who pid s p).1]
  rfl

theorem marked_alive (at_ : s.threads who = .entering pid) (c : Nat) : Alive (marked who pid s) c ↔ Alive s c := by
  unfold Alive
  rw [marked_threads]
  split
  · next same =>
    subst same
    by_cases startup : c = 0
    · simp [startup]
    · simp [afterJoin,startup,at_]; exact fun _ => Iff.rfl
  · rfl

theorem afterJoin_present (who : Nat) : afterJoin who ≠ .absent := by
  unfold afterJoin
  split <;> simp

theorem afterJoin_spawns (who : Nat) : (afterJoin who).spawns = none := by
  unfold afterJoin
  split <;> rfl

theorem afterJoin_joins (who : Nat) : (afterJoin who).joins = none := by
  unfold afterJoin
  split <;> rfl

theorem Threads.mark (threads : Threads s) (at_ : s.threads who = .entering pid) : Threads (marked who pid s) := by
  have lives := threads.born_lt (c := who) (by simp [at_])
  have phase := marked_threads who pid s
  have fields := marked_fields who pid s
  refine ⟨threads.startup,⟨threads.born.1,?_⟩,?_,threads.occupants,threads.slots,?_,?_,?_,threads.apart,
    ?_,?_,?_,threads.unbuilt,?_⟩
  · rw [phase]
    split
    · exact afterJoin_present who
    · exact threads.born.2
  · intro c late
    rw [phase,if_neg (by rintro rfl; exact absurd lives (Nat.not_lt.mpr late))]
    exact threads.unborn c late
  · intro c living
    exact (threads.alive c ((marked_alive at_ c).mp living)).imp_right (fields _).1.trans
  · intro p within used
    exact threads.occupied p within (by rwa [(fields p).1] at used)
  · intro c first second
    obtain ⟨small,live⟩ := threads.spawners c first second
    refine ⟨small,?_⟩
    rw [phase]
    split
    · exact afterJoin_present who
    · exact live
  · intro w q spawning
    rw [phase] at spawning
    split at spawning
    · simp [afterJoin_spawns] at spawning
    · obtain ⟨within,first,second,third,fourth⟩ := threads.spawning w q spawning
      refine ⟨within,first,second,third,?_⟩
      rw [phase]
      exact (if_neg (by rintro same; change s.occupant q = who at same; simp [same,at_] at fourth)).trans
        fourth
  · intro c first live
    rw [phase] at live
    split at live
    · next same => subst same; exact threads.built c first (by simp [at_])
    · exact threads.built c first live
  · intro w q counting
    rw [phase] at counting
    split at counting
    · have spawns := afterJoin_spawns who
      rcases counting with h | h <;> simp [h,Phase.spawns] at spawns
    · exact threads.counted w q counting
  · intro c first second raw
    obtain ⟨executable,there⟩ := threads.setup c first second raw
    refine ⟨executable,?_⟩
    rw [phase]
    exact (if_neg fun same => by
      change s.spawner c = who at same
      rw [same,at_] at there
      contradiction).trans there

theorem Waiters.mark (waiters : Waiters s) (at_ : s.threads who = .entering pid)
    (mine : s.spawner (s.occupant pid) = who) : Waiters (marked who pid s) := by
  have phase := marked_threads who pid s
  refine ⟨?_,?_,waiters.once⟩
  · intro w q joining
    rw [phase] at joining
    split at joining
    · simp [afterJoin_joins] at joining
    · next other =>
      obtain ⟨made,spawned,free⟩ := waiters.joining w q joining
      refine ⟨(marked_ready who pid s q).mpr made,spawned,fun h => ?_⟩
      rcases (marked_joined who pid s _).mp h with same | h
      · have : s.spawner (s.occupant q) = who := by
          rw [show s.occupant q = s.occupant pid from same,mine]
        exact other (spawned.symm.trans this)
      · exact free h
  · intro q w member
    have sleeping := waiters.queue q w member
    rw [phase,if_neg (by rintro rfl; simp [at_] at sleeping)]
    exact sleeping

theorem Entries.mark (entries : Entries s) (threads : Threads s) (at_ : s.threads who = .entering pid)
    (zombie : (s.table pid).state = .zombie) (slot : s.slot (s.occupant pid) = pid) : Entries (marked who pid s) := by
  have fields := marked_fields who pid s
  have still := marked_ready who pid s
  have joined := marked_joined who pid s
  have unlike : ∀ p, InTable p → (s.table p).state ≠ .free → p ≠ pid → s.occupant p ≠ s.occupant pid := by
    intro p within used apart same
    have := (threads.occupied p within used).2
    rw [same,slot] at this
    exact apart this.symm
  refine ⟨?_,?_,?_,?_⟩
  · intro p made free
    have same : p ≠ pid := by rintro rfl; exact free ((joined _).mpr (.inl rfl))
    rw [marked_table who s same]
    exact entries.parent p ((still p).mp made) fun h => free ((joined _).mpr (.inr h))
  · intro p made h
    by_cases same : p = pid
    · subst same; exact ⟨marked_parent who p s,(fields p).1.trans zombie⟩
    · have made := (still p).mp made
      rw [marked_table who s same]
      refine entries.joined p made (((joined _).mp h).resolve_left ?_)
      exact unlike p made.1 made.2.1 same
  · intro p made dead free
    have same : p ≠ pid := by rintro rfl; exact free ((joined _).mpr (.inl rfl))
    rw [marked_table who s same] at dead ⊢
    exact entries.retval p ((still p).mp made) dead fun h => free ((joined _).mpr (.inr h))
  · intro c first second present free
    obtain ⟨own,used⟩ := entries.kept c first second (present.imp_right (marked_alive at_ _).mp)
      fun h => free ((joined _).mpr (.inr h))
    refine ⟨own,?_⟩
    rw [(fields _).1]
    exact used

theorem Lists.mark (list : Lists s lists) (at_ : s.threads who = .entering pid) : Lists (marked who pid s) lists := by
  have fields := marked_fields who pid s
  have still := marked_ready who pid s
  refine ⟨?_,?_,list.disjoint,fun p made => list.ready p ((still p).mp made),list.parents,?_,?_,?_,
    list.inside⟩
  · simpa only [fields] using list.chain
  · intro q items given z member
    obtain ⟨made,dead,rest⟩ := list.members q items given z member
    exact ⟨(still z).mpr made,(fields z).1.trans dead,rest⟩
  · intro p made dead living
    exact list.mine p ((still p).mp made) ((fields p).1.symm.trans dead) ((marked_alive at_ _).mp living)
  · intro p made quiet
    rw [(fields p).1] at quiet
    exact (fields p).2.2.2.trans (list.lonely p ((still p).mp made) quiet)
  · intro p made startup
    exact (fields p).2.2.1.trans (list.single p ((still p).mp made) startup)

theorem Sound.mark (sound : Sound s) (at_ : s.threads who = .entering pid)
    (zombie : (s.table pid).state = .zombie) : Sound (marked who pid s) := by
  obtain ⟨threads,waiters,entries,⟨lists,list⟩,log⟩ := sound
  obtain ⟨ready,mine,unjoined⟩ := waiters.joining who pid (by simp [at_,Phase.joins])
  obtain ⟨positive,slot⟩ := threads.occupied pid ready.1 ready.2.1
  have finished : s.threads (s.occupant pid) = .finished := by
    by_contra live
    have := (threads.alive _ ⟨positive,threads.occupants pid,live⟩).2
    rw [slot,zombie] at this
    contradiction
  have phase := marked_threads who pid s
  refine ⟨threads.mark at_,waiters.mark at_ mine,entries.mark threads at_ zombie slot,⟨lists,list.mark at_⟩,?_⟩
  have fresh : s.occupant pid ∉ s.joins.map Joined.child := unjoined
  have past : ∀ j ∈ s.joins, j.caller = 0 → who ≠ 0 := by
    rintro j member startup rfl
    have := log.startup j member startup
    simp [at_] at this
  refine ⟨?_,List.nodup_cons.mpr ⟨fresh,log.once⟩,?_,?_⟩
  · intro j member
    rcases List.mem_cons.mp member with rfl | old
    · exact ⟨mine,slot,entries.retval pid ready zombie unjoined⟩
    · exact log.sound j old
  · intro j member
    have other : s.threads j.child = .finished → (marked who pid s).threads j.child = .finished := by
      intro finished
      rw [phase,if_neg (by rintro same; simp [same,at_] at finished)]
      exact finished
    rcases List.mem_cons.mp member with rfl | earlier
    · exact ⟨positive,threads.occupants pid,other finished⟩
    · obtain ⟨first,second,third⟩ := log.past j earlier
      exact ⟨first,second,other third⟩
  · intro j member startup
    rcases List.mem_cons.mp member with rfl | old
    · have startup : who = 0 := startup
      rw [phase,if_pos startup.symm]
      simp [afterJoin,startup]
    · rw [phase,if_neg (Ne.symm (past j old startup))]
      exact log.startup j old startup

def Listed (s : Processes) (q pid : Int) : Prop :=
  ∃ items, Chain (fun p => (s.table p).nextZombie) (-1) (s.table q).firstZombie items ∧ pid ∈ items

/-- The table in which the entry of a joined process has been freed and has left the list from `q`. -/
structure Relinks (s : Processes) (q pid : Int) (table : Int → Entry) : Prop where
  zombie : (s.table pid).state = .zombie
  joined : WasJoined s (s.occupant pid)
  free : (table pid).state = .free
  rest : ∀ p, p ≠ pid → (table p).state = (s.table p).state ∧
    (table p).parent = (s.table p).parent ∧ (table p).retval = (s.table p).retval
  first : ∀ p, p ≠ q → (table p).firstZombie = (s.table p).firstZombie

section Relinks
variable {table : Int → Entry} (relinks : Relinks s q pid table)
include relinks

theorem Relinks.still (p : Int) : Ready { s with table := table } p ↔ Ready s p ∧ p ≠ pid := by
  by_cases same : p = pid
  · subst same
    exact ⟨fun made => absurd relinks.free made.2.1,fun made => absurd rfl made.2⟩
  · unfold Ready
    rw [(relinks.rest p same).1]
    simp [same]

theorem Threads.relink (threads : Threads s) : Threads { s with table := table } := by
  refine ⟨threads.startup,threads.born,threads.unborn,threads.occupants,threads.slots,?_,?_,
    threads.spawners,threads.apart,threads.spawning,threads.built,threads.counted,threads.unbuilt,threads.setup⟩
  · intro c living
    have apart : s.slot c ≠ pid := fun same => threads.zombie_vacant relinks.zombie c living same
    exact (threads.alive c living).imp_right (relinks.rest _ apart).1.trans
  · intro p inside used
    have apart : p ≠ pid := by rintro rfl; exact used relinks.free
    exact threads.occupied p inside (by rwa [← (relinks.rest p apart).1])

theorem Waiters.relink (waiters : Waiters s) : Waiters { s with table := table } := by
  refine ⟨?_,waiters.queue,waiters.once⟩
  intro who p joining
  obtain ⟨made,spawned,unjoined⟩ := waiters.joining who p joining
  refine ⟨(relinks.still p).mpr ⟨made,?_⟩,spawned,unjoined⟩
  rintro rfl
  exact unjoined relinks.joined

theorem Entries.relink (entries : Entries s) : Entries { s with table := table } := by
  have still := relinks.still
  have rest := relinks.rest
  refine ⟨?_,?_,?_,?_⟩
  · intro p made unjoined
    obtain ⟨made,apart⟩ := (still p).mp made
    exact (rest p apart).2.1.trans (entries.parent p made unjoined)
  · intro p made gone
    obtain ⟨made,apart⟩ := (still p).mp made
    obtain ⟨first,second⟩ := entries.joined p made gone
    exact ⟨(rest p apart).2.1.trans first,(rest p apart).1.trans second⟩
  · intro p made dead unjoined
    obtain ⟨made,apart⟩ := (still p).mp made
    obtain ⟨v,passed,value⟩ := entries.retval p made ((rest p apart).1.symm.trans dead) unjoined
    exact ⟨v,passed,(rest p apart).2.2.trans value⟩
  · intro c small large present unjoined
    obtain ⟨mine,used⟩ := entries.kept c small large present unjoined
    have apart : s.slot c ≠ pid := by
      intro same
      have joined := relinks.joined
      rw [← same,mine] at joined
      exact unjoined joined
    exact ⟨mine,by rw [(rest _ apart).1]; exact used⟩

theorem Lists.relink (list : Lists s lists) (ready : Ready s q) (at_ : lists q = some items) (member : pid ∈ items)
    (chain : Chain (fun p => (table p).nextZombie) (-1) (table q).firstZombie (items.erase pid))
    (back : Back (fun p => (table p).prevZombie) (-1) (items.erase pid))
    (outside : ∀ p, p ∉ items → (table p).nextZombie = (s.table p).nextZombie ∧
      (table p).prevZombie = (s.table p).prevZombie) :
    Lists { s with table := table } (Function.update lists q (some (items.erase pid))) := by
  have still := relinks.still
  have rest := relinks.rest
  have members := list.members q items at_
  have sublist : ∀ z, z ∈ items.erase pid ↔ z ≠ pid ∧ z ∈ items :=
    fun z => (list.chain q items at_).1.nodup.mem_erase_iff
  have whole : ∀ r others, Function.update lists q (some (items.erase pid)) r = some others →
      ∃ all, lists r = some all ∧ ∀ z ∈ others, z ∈ all ∧ z ≠ pid := by
    intro r others given
    rcases update_some given with ⟨rfl,rfl⟩ | ⟨different,old⟩
    · exact ⟨items,at_,fun z inside => ((sublist z).mp inside).symm⟩
    · refine ⟨others,old,fun z inside => ⟨inside,?_⟩⟩
      rintro rfl
      exact different (list.disjoint r q others items z old at_ inside member)
  refine ⟨?_,?_,?_,fun p made => update_known (list.ready p ((still p).mp made).1) q _,
    fun c small large process => update_known (list.parents c small large process) q _,?_,?_,?_,?_⟩
  · intro r others given
    rcases update_some given with ⟨rfl,rfl⟩ | ⟨different,old⟩
    · exact ⟨chain,back⟩
    · obtain ⟨chain,back⟩ := list.chain r others old
      have apart : ∀ p ∈ others, p ∉ items := fun p inside other =>
        different (list.disjoint r q others items p old at_ inside other)
      change Chain _ _ (table r).firstZombie _ ∧ _
      rw [relinks.first r different]
      exact ⟨chain.congr fun p inside => (outside p (apart p inside)).1,
        back.congr fun p inside => (outside p (apart p inside)).2⟩
  · intro r others given z inside
    obtain ⟨all,old,sub⟩ := whole r others given
    obtain ⟨inside,apart⟩ := sub z inside
    obtain ⟨made,dead,more⟩ := list.members r all old z inside
    exact ⟨(still z).mpr ⟨made,apart⟩,(rest z apart).1.trans dead,more⟩
  · intro r r' others others' z given given' inside inside'
    obtain ⟨all,old,sub⟩ := whole r others given
    obtain ⟨all',old',sub'⟩ := whole r' others' given'
    exact list.disjoint r r' all all' z old old' (sub z inside).1 (sub' z inside').1
  · intro p made dead living
    obtain ⟨made,apart⟩ := (still p).mp made
    obtain ⟨others,there,inside⟩ := list.mine p made ((rest p apart).1.symm.trans dead) living
    change ∃ items', Function.update lists q (some (items.erase pid))
      (s.slot (s.spawner (s.occupant p))) = some items' ∧ p ∈ items'
    by_cases same : s.slot (s.spawner (s.occupant p)) = q
    · rw [same,at_] at there
      cases there
      exact ⟨items.erase pid,by simp [same],(sublist p).mpr ⟨apart,inside⟩⟩
    · exact ⟨others,by rw [Function.update_of_ne same]; exact there,inside⟩
  · intro p made quiet
    obtain ⟨made,apart⟩ := (still p).mp made
    rw [(rest p apart).1] at quiet
    have unlisted : p ∉ items := by
      intro inside
      obtain ⟨-,dead,process,-⟩ := members p inside
      rcases quiet with running | startup
      · rw [dead] at running; contradiction
      · exact process startup
    exact (outside p unlisted).2.trans (list.lonely p made quiet)
  · intro p made startup
    obtain ⟨made,apart⟩ := (still p).mp made
    have unlisted : p ∉ items := fun inside => (members p inside).2.2.1 startup
    exact (outside p unlisted).1.trans (list.single p made startup)
  · intro r old
    by_cases same : r = q
    · subst same; exact ready.1
    · exact list.inside r (by simpa [same] using old)

/-- The entry of a joined process leaves the list it is in and is freed. -/
theorem Sound.relink (sound : Sound s) (ready : Ready s q) (listed : Listed s q pid)
    (links : ∀ items, Chain (fun p => (s.table p).nextZombie) (-1) (s.table q).firstZombie items →
      Back (fun p => (s.table p).prevZombie) (-1) items → pid ∈ items →
      (∀ z ∈ items, 0 ≤ z ∧ z ≠ q) →
      Chain (fun p => (table p).nextZombie) (-1) (table q).firstZombie (items.erase pid) ∧
      Back (fun p => (table p).prevZombie) (-1) (items.erase pid) ∧
      ∀ p, p ∉ items → (table p).nextZombie = (s.table p).nextZombie ∧
        (table p).prevZombie = (s.table p).prevZombie) : Sound { s with table := table } := by
  obtain ⟨threads,waiters,entries,⟨lists,list⟩,log⟩ := sound
  obtain ⟨items,at_⟩ := Option.ne_none_iff_exists'.mp (list.ready q ready)
  obtain ⟨chain,back⟩ := list.chain q items at_
  have members := list.members q items at_
  have member : pid ∈ items := by
    obtain ⟨others,chain',member⟩ := listed
    exact chain.unique chain' ▸ member
  obtain ⟨chain',back',outside⟩ := links items chain back member fun z inside =>
    ⟨(members z inside).1.1.1,(members z inside).2.2.2⟩
  exact ⟨threads.relink relinks,waiters.relink relinks,entries.relink relinks,
    ⟨_,list.relink relinks ready at_ member chain' back' outside⟩,⟨log.sound,log.once,log.past,log.startup⟩⟩

end Relinks

theorem unlinkZombie_table (q pid p : Int) (s : Processes) :
    (unlinkZombie q pid s).table p = { s.table p with
      firstZombie := if (s.table q).firstZombie = pid ∧ p = q then (s.table pid).nextZombie
        else (s.table p).firstZombie
      nextZombie := if (s.table q).firstZombie ≠ pid ∧ p = (s.table pid).prevZombie then
        (s.table pid).nextZombie else (s.table p).nextZombie
      prevZombie := if 0 ≤ (s.table pid).nextZombie ∧ p = (s.table pid).nextZombie then
        (if (s.table q).firstZombie = pid then -1 else (s.table pid).prevZombie)
        else (s.table p).prevZombie } := by
  unfold unlinkZombie
  by_cases head : (s.table q).firstZombie = pid <;>
    by_cases more : 0 ≤ (s.table pid).nextZombie <;>
    by_cases next : p = (s.table pid).nextZombie <;>
    by_cases here : p = q <;>
    by_cases prev : p = (s.table pid).prevZombie <;>
    simp [head,more,next,here,prev] <;> simp_all

theorem next_item {next : Int → Int} {pre post : List Int} {first : Int}
    (chain : Chain next (-1) first (pre ++ pid :: post)) (inside : ∀ z ∈ pre ++ pid :: post, 0 ≤ z) (p : Int) :
    (0 ≤ next pid ∧ p = next pid) ↔ some p = post.head? := by
  have later := chain.suffix.2.2
  cases post with
  | nil =>
    have : next pid = -1 := later
    simp [this]
  | cons z rest =>
    have : next pid = z := later.1
    have low := inside z (by simp)
    simp [this,low]

/-- The links after the zombie `pid` has left the list of `q` and its entry is free. -/
structure Unlinks (s : Processes) (q pid : Int) (table : Int → Entry) : Prop where
  first : ∀ p, (table p).firstZombie = if (s.table q).firstZombie = pid ∧ p = q then
    (s.table pid).nextZombie else (s.table p).firstZombie
  next : ∀ p, (table p).nextZombie = if (s.table q).firstZombie ≠ pid ∧ p = (s.table pid).prevZombie then
    (s.table pid).nextZombie else (s.table p).nextZombie
  prev : ∀ p, (table p).prevZombie = if 0 ≤ (s.table pid).nextZombie ∧ p = (s.table pid).nextZombie then
    (if (s.table q).firstZombie = pid then -1 else (s.table pid).prevZombie) else (s.table p).prevZombie

theorem processReset_at (pid p : Int) (s : Processes) :
    (processReset pid s).table p = if p = pid then (s.table p).reset else s.table p := by
  simp [processReset]

theorem unlinkZombie_unlinks (q pid : Int) (s : Processes) :
    Unlinks s q pid (processReset pid (unlinkZombie q pid s)).table := by
  refine ⟨?_,?_,?_⟩
  all_goals
    intro p
    rw [processReset_at,unlinkZombie_table]
    split <;> simp [Entry.reset]

section Unlinks
variable {table : Int → Entry} {post : List Int} (unlinks : Unlinks s q pid table)
  (follows : ∀ p, (0 ≤ (s.table pid).nextZombie ∧ p = (s.table pid).nextZombie) ↔ some p = post.head?)
include unlinks follows

theorem Unlinks.unlinked (outside : p ∉ pre ++ pid :: post) : (table p).prevZombie = (s.table p).prevZombie := by
  rw [unlinks.prev,if_neg]
  intro following
  have head := (follows p).mp following
  cases post with
  | nil => simp at head
  | cons z more =>
    simp only [List.head?_cons,Option.some.injEq] at head
    exact outside (by simp [head])

theorem Unlinks.head (chain : Chain (fun p => (s.table p).nextZombie) (-1) (s.table q).firstZombie (pid :: post))
    (back : Back (fun p => (s.table p).prevZombie) (-1) (pid :: post)) :
    Chain (fun p => (table p).nextZombie) (-1) (table q).firstZombie post ∧
      Back (fun p => (table p).prevZombie) (-1) post ∧
      ∀ p, p ∉ pid :: post → (table p).nextZombie = (s.table p).nextZombie := by
  have nodup := chain.nodup
  have head : (s.table q).firstZombie = pid := chain.1
  have next : ∀ p, (table p).nextZombie = (s.table p).nextZombie := by
    intro p
    rw [unlinks.next,if_neg (by simp [head])]
  refine ⟨?_,?_,fun p _ => next p⟩
  · simp only [next]
    rw [unlinks.first,if_pos ⟨head,rfl⟩]
    exact chain.2.2
  · cases post with
    | nil => trivial
    | cons z more =>
      have start : (table z).prevZombie = -1 := by
        rw [unlinks.prev,if_pos ((follows z).mpr (by simp)),if_pos head]
      refine ⟨start,back.2.2.congr fun p inner => ?_⟩
      have different : p ≠ z := by rintro rfl; simp [inner] at nodup
      change (table p).prevZombie = _
      rw [unlinks.prev,if_neg fun following => different (by simpa using (follows p).mp following)]

theorem Unlinks.inner
    (chain : Chain (fun p => (s.table p).nextZombie) (-1) (s.table q).firstZombie (front ++ w :: pid :: post))
    (back : Back (fun p => (s.table p).prevZombie) (-1) (front ++ w :: pid :: post)) :
    Chain (fun p => (table p).nextZombie) (-1) (table q).firstZombie (front ++ w :: post) ∧
      Back (fun p => (table p).prevZombie) (-1) (front ++ w :: post) ∧
      ∀ p, p ∉ front ++ w :: pid :: post → (table p).nextZombie = (s.table p).nextZombie := by
  have nodup := chain.nodup
  have behind : (s.table pid).prevZombie = w := back.at
  have head : (s.table q).firstZombie ≠ pid := by
    intro same
    have start := chain.first_eq
    rw [same] at start
    cases front with
    | nil => simp at start; simp [start] at nodup
    | cons y more => simp at start; simp [start] at nodup
  have links : (fun p => (table p).nextZombie) = Function.update (fun p => (s.table p).nextZombie) w
      (s.table pid).nextZombie := by
    funext p
    rw [unlinks.next,behind]
    by_cases here : p = w
    · simp [here,head]
    · simp [here]
  refine ⟨?_,?_,?_⟩
  · rw [links,unlinks.first,if_neg (by simp [head])]
    exact chain.remove
  · refine back.remove nodup fun p _ => ?_
    rw [unlinks.prev,behind,if_neg head]
    by_cases following : 0 ≤ (s.table pid).nextZombie ∧ p = (s.table pid).nextZombie
    · rw [if_pos following,if_pos ((follows p).mp following)]
    · rw [if_neg following,if_neg fun other => following ((follows p).mpr other)]
  · intro p outside
    rw [unlinks.next,if_neg]
    rintro ⟨-,here⟩
    exact outside (by simp [here,behind])

end Unlinks

theorem Sound.unlink (sound : Sound s) (ready : Ready s q) (running : (s.table q).state = .running)
    (zombie : (s.table pid).state = .zombie) (joined : WasJoined s (s.occupant pid))
    (listed : Listed s q pid) : Sound (processReset pid (unlinkZombie q pid s)) := by
  have apart : q ≠ pid := by rintro rfl; rw [running] at zombie; contradiction
  have unlinks := unlinkZombie_unlinks q pid s
  have relinks : Relinks s q pid (processReset pid (unlinkZombie q pid s)).table := by
    refine ⟨zombie,joined,by simp [processReset_at,Entry.reset],?_,?_⟩
    · intro p other
      rw [processReset_at,if_neg other,unlinkZombie_table]
      exact ⟨rfl,rfl,rfl⟩
    · intro p other
      rw [unlinks.first,if_neg (by simp [other])]
  have same : processReset pid (unlinkZombie q pid s) =
      { s with table := (processReset pid (unlinkZombie q pid s)).table } := by
    unfold processReset unlinkZombie
    dsimp only
    split <;> split <;> rfl
  rw [same]
  refine sound.relink relinks ready listed fun items chain back member inside => ?_
  obtain ⟨pre,post,rfl⟩ := List.append_of_mem member
  have follows := next_item chain fun z inner => (inside z inner).1
  have fresh : pid ∉ pre := by
    intro inner
    have nodup := chain.nodup
    rw [List.nodup_append] at nodup
    exact nodup.2.2 pid inner pid (by simp) rfl
  rw [List.erase_append_right _ fresh,List.erase_cons_head]
  rcases List.eq_nil_or_concat pre with rfl | ⟨front,w,rfl⟩
  · obtain ⟨chain',back',next⟩ := unlinks.head follows chain back
    exact ⟨chain',back',fun p outside => ⟨next p outside,unlinks.unlinked follows outside⟩⟩
  · have items : front.concat w ++ pid :: post = front ++ w :: pid :: post := by simp
    have shorter : front.concat w ++ post = front ++ w :: post := by simp
    rw [items] at chain back
    obtain ⟨chain',back',next⟩ := unlinks.inner follows chain back
    rw [items,shorter]
    refine ⟨chain',back',fun p outside => ⟨next p outside,?_⟩⟩
    exact unlinks.unlinked follows (items ▸ outside)

theorem Sound.outside (sound : Sound s) (far : ¬InTable p) (f : Entry → Entry) : Sound (s.modify p f) := by
  obtain ⟨threads,waiters,entries,⟨lists,list⟩,log⟩ := sound
  have table : ∀ q, InTable q → (s.modify p f).table q = s.table q := by
    intro q inside
    rw [modify_table,if_neg (by rintro rfl; exact far inside)]
  have still : ∀ q, Ready (s.modify p f) q ↔ Ready s q := by
    intro q
    constructor
    · rintro ⟨inside,used,built⟩; exact ⟨inside,by rwa [table q inside] at used,built⟩
    · rintro ⟨inside,used,built⟩; exact ⟨inside,by rwa [table q inside],built⟩
  refine ⟨?_,?_,?_,⟨lists,?_⟩,⟨log.sound,log.once,log.past,log.startup⟩⟩
  · refine ⟨threads.startup,threads.born,threads.unborn,threads.occupants,threads.slots,?_,?_,
      threads.spawners,threads.apart,threads.spawning,threads.built,threads.counted,threads.unbuilt,threads.setup⟩
    · intro c living
      obtain ⟨mine,running⟩ := threads.alive c living
      refine ⟨mine,?_⟩
      change ((s.modify p f).table (s.slot c)).state = .running
      rwa [table _ (threads.slots c living.1 living.2.1)]
    · intro q inside used
      exact threads.occupied q inside (by rwa [table q inside] at used)
  · exact ⟨fun who q joining => (waiters.joining who q joining).imp_left (still q).mpr,
      waiters.queue,waiters.once⟩
  · refine ⟨?_,?_,?_,?_⟩
    · intro q made unjoined
      rw [table q made.1]
      exact entries.parent q ((still q).mp made) unjoined
    · intro q made joined
      rw [table q made.1]
      exact entries.joined q ((still q).mp made) joined
    · intro q made zombie unjoined
      rw [table q made.1] at zombie ⊢
      exact entries.retval q ((still q).mp made) zombie unjoined
    · intro c first second present unjoined
      obtain ⟨mine,used⟩ := entries.kept c first second present unjoined
      refine ⟨mine,?_⟩
      change ((s.modify p f).table (s.slot c)).state ≠ .free
      rwa [table _ (threads.slots c first second)]
  · refine ⟨?_,?_,list.disjoint,fun q made => list.ready q ((still q).mp made),list.parents,?_,?_,?_,
      list.inside⟩
    · intro q items at_
      obtain ⟨chain,back⟩ := list.chain q items at_
      rw [table q (list.inside q (by simp [at_]))]
      refine ⟨chain.congr fun z member => ?_,back.congr fun z member => ?_⟩ <;>
        rw [table z (list.members q items at_ z member).1.1]
    · intro q items at_ z member
      obtain ⟨made,dead,rest⟩ := list.members q items at_ z member
      rw [table z made.1]
      exact ⟨(still z).mpr made,dead,rest⟩
    · intro q made dead
      rw [table q made.1] at dead
      exact list.mine q ((still q).mp made) dead
    · intro q made quiet
      rw [table q made.1] at quiet ⊢
      exact list.lonely q ((still q).mp made) quiet
    · intro q made startup
      rw [table q made.1]
      exact list.single q ((still q).mp made) startup

theorem Sound.reset (sound : Sound s) (ready : Ready s pid) (zombie : (s.table pid).state = .zombie)
    (joined : WasJoined s (s.occupant pid)) (startup : s.spawner (s.occupant pid) = 0) :
    Sound (processReset pid s) := by
  refine sound.freed (· = pid) ?_ ?_ ?_ ?_ ?_ ?_ ?_
  · intro p
    by_cases same : p = pid
    · subst same; simp [Entry.reset]
    · simp [same]
  · rintro p rfl; simp [Entry.reset]
  · intro p apart; simp [apart]
  · rintro p rfl; exact sound.threads.zombie_vacant zombie
  · rintro p rfl - ⟨-,unjoined⟩; exact unjoined joined
  · rintro p rfl -; exact ready.2.2
  · intro lists list
    refine ⟨lists,fun q items at_ => ⟨items,at_,fun z member => ⟨member,?_⟩⟩,fun _ h => h,
      fun q whole at_ z member _ _ => ⟨whole,at_,member⟩,fun q items at_ => ?_⟩
    · rintro rfl; exact (list.members q items at_ z member).2.2.1 startup
    · have first : ((Function.update s.table pid (s.table pid).reset) q).firstZombie =
          (s.table q).firstZombie := by
        by_cases same : q = pid
        · subst same; simp [Entry.reset]
        · simp [same]
      rw [first]
      exact list.chain q items at_

/-- The startup thread joins the initial program, which is in no list: the code then works
on what it takes for entry -1. -/
theorem Sound.unlink_startup (sound : Sound s) (ready : Ready s pid) (zombie : (s.table pid).state = .zombie)
    (joined : WasJoined s (s.occupant pid)) (startup : s.spawner (s.occupant pid) = 0) :
    Sound (processReset pid (unlinkZombie (-1) pid s)) := by
  obtain ⟨lists,list⟩ := sound.lists
  have prev := list.lonely pid ready (.inr startup)
  have next := list.single pid ready startup
  obtain ⟨f,same⟩ : ∃ f, unlinkZombie (-1) pid s = s.modify (-1) f := by
    unfold unlinkZombie
    simp only [prev,next]
    split
    · exact ⟨_,if_neg (by omega)⟩
    · exact ⟨_,if_neg (by omega)⟩
  rw [same]
  have here : (s.modify (-1) f).table pid = s.table pid := by
    have : pid ≠ -1 := by have := ready.1.1; omega
    simp [this]
  exact (sound.outside (p := -1) (by unfold InTable; omega) f).reset
    ⟨ready.1,by rw [here]; exact ready.2.1,ready.2.2⟩ (by rw [here]; exact zombie) joined startup

theorem Sound.join (sound : Sound s) (at_ : s.threads who = .entering pid) :
    Sound (joinLocked who pid s) := by
  unfold joinLocked
  split
  · next zombie =>
    obtain ⟨ready,mine,unjoined⟩ := sound.waiters.joining who pid (by simp [at_,Phase.joins])
    have mark := sound.mark at_ zombie
    rw [joinZombie_eq]
    split
    · have same : ∀ p, ((marked who pid s).table p).state = (s.table p).state ∧
          ((marked who pid s).table p).nextZombie = (s.table p).nextZombie ∧
          ((marked who pid s).table p).firstZombie = (s.table p).firstZombie := by
        intro p
        by_cases here : p = pid
        · subst here; simp [marked,Processes.goto]
        · simp [marked,Processes.goto,here]
      have next := mark.children (s.slot who) fun n => n - 1
      generalize dec : (marked who pid s).modify (s.slot who)
        (fun e => { e with children := e.children - 1 }) = t at next ⊢
      have after : ∀ p, (t.table p).state = (s.table p).state ∧
          (t.table p).nextZombie = (s.table p).nextZombie ∧
          (t.table p).firstZombie = (s.table p).firstZombie := by
        intro p
        rw [← dec,modify_table]
        split <;> exact same p
      have occupant : t.occupant = s.occupant := by rw [← dec]; rfl
      have spawner : t.spawner = s.spawner := by rw [← dec]; rfl
      have built : t.built = s.built := by rw [← dec]; rfl
      have still : ∀ p, Ready s p → Ready t p := by
        rintro p ⟨inside,used,made⟩
        exact ⟨inside,by rwa [(after p).1],by rwa [built,occupant]⟩
      have joined : WasJoined t (t.occupant pid) := by
        rw [occupant,← dec]
        simp [WasJoined,marked,Processes.modify]
      have zombie' := (after pid).1.trans zombie
      by_cases startup : who = 0
      · subst startup
        rw [sound.threads.startup]
        exact next.unlink_startup (still pid ready) zombie' joined (by rw [spawner,occupant,mine])
      · have living : Alive s who := by
          refine ⟨by omega,sound.threads.born_lt (by simp [at_]),by simp [at_]⟩
        obtain ⟨own,running⟩ := sound.threads.alive who living
        have there : Ready s (s.slot who) := by
          refine ⟨sound.threads.slots who living.1 living.2.1,by simp [running],?_⟩
          rw [own]
          exact sound.threads.built who living.1 (by simp [at_])
        refine next.unlink (still _ there) ((after _).1.trans running) zombie' joined ?_
        obtain ⟨lists,list⟩ := sound.lists
        obtain ⟨items,listed,member⟩ := list.mine pid ready zombie (by rwa [mine])
        rw [mine] at listed
        refine ⟨items,?_,member⟩
        rw [(after _).2.2]
        exact ((list.chain _ items listed).1).congr fun p _ => (after p).2.1
    · exact mark
  · exact sound.sleep at_

end Steps

/-! ### Runs -/

/-- A join that passes its check does so on an entry in use, initialised, and occupied by
a process that the caller has spawned. -/
def CleanJoin : Action → Processes → Prop
  | .join who pid, s => joinCheck s who pid = true → (s.table pid).state ≠ .free ∧
    s.built (s.occupant pid) = true ∧ s.spawner (s.occupant pid) = who
  | _, _ => True

instance (a : Action) (s : Processes) : Decidable (CleanJoin a s) := by
  cases a <;> unfold CleanJoin <;> infer_instance

instance (a : Action) (s : Processes) : Decidable (Roomy a s) := by
  cases a <;> unfold Roomy <;> infer_instance

/-- What each action does, and when. -/
inductive Stepped (s : Processes) : Action → Processes → Prop where
  | spawn (who : Nat) (executable : List UInt8) (idle : s.threads who = .idle) :
    Stepped s (.spawn who executable) (processSpawn who executable s)
  | spawnInit (who : Nat) (pid : Int) (executable : List UInt8) (at_ : s.threads who = .allocated pid executable) :
    Stepped s (.spawnInit who) (spawnInit who pid executable s)
  | spawnCount (who : Nat) (pid : Int) (at_ : s.threads who = .counting pid) :
    Stepped s (.spawnCount who) (spawnCount who pid s)
  | spawnStart (who : Nat) (pid : Int) (at_ : s.threads who = .starting pid) :
    Stepped s (.spawnStart who) (spawnStart who pid s)
  | join (who : Nat) (pid : Int) (idle : s.threads who = .idle) : Stepped s (.join who pid) (processJoin who pid s)
  | joinLocked (who : Nat) (pid : Int) (at_ : s.threads who = .entering pid) :
    Stepped s (.joinLocked who) (joinLocked who pid s)
  | finish (who : Nat) (retval : Int) (t : Processes) (idle : s.threads who = .idle) (process : 0 < who)
    (finished : processFinish who retval s = some t) : Stepped s (.finish who retval) t

theorem step_stepped (next : step a s = some t) : Stepped s a t := by
  cases a with
  | spawn who executable =>
    simp only [step] at next
    split at next
    · next ready => cases next; exact .spawn who executable ready.1
    · contradiction
  | spawnInit who =>
    simp only [step] at next
    split at next
    · next pid executable at_ => cases next; exact .spawnInit who pid executable at_
    · contradiction
  | spawnCount who =>
    simp only [step] at next
    split at next
    · next pid at_ => cases next; exact .spawnCount who pid at_
    · contradiction
  | spawnStart who =>
    simp only [step] at next
    split at next
    · next pid at_ => cases next; exact .spawnStart who pid at_
    · contradiction
  | join who pid =>
    simp only [step] at next
    split at next
    · next ready => cases next; exact .join who pid ready.1
    · contradiction
  | joinLocked who =>
    simp only [step] at next
    split at next
    · next pid at_ => cases next; exact .joinLocked who pid at_
    · contradiction
  | finish who retval =>
    simp only [step] at next
    split at next
    · next ready => exact .finish who retval t ready.1 (Nat.pos_of_ne_zero ready.2) next
    · contradiction

theorem step_sound (sound : Sound s) (ok : Roomy a s ∧ CleanJoin a s) (next : step a s = some t) :
    Sound t := by
  cases step_stepped next with
  | spawn who executable idle =>
    obtain ⟨pid,does⟩ := sound.threads.allocates idle executable ok.1
    exact sound.allocated does idle
  | spawnInit who pid executable at_ => exact sound.initialised (spawnInit_initialises at_)
  | spawnCount who pid at_ => exact sound.count at_
  | spawnStart who pid at_ => exact sound.start at_
  | join who pid idle =>
    unfold processJoin
    split
    · next checked =>
      obtain ⟨used,built,mine⟩ := ok.2 checked
      exact sound.enter idle checked used built mine
    · exact sound.refuse idle
  | joinLocked who pid at_ => exact sound.join at_
  | finish who retval _ idle process finished =>
    obtain ⟨u,same,kept⟩ := sound.finish idle process retval
    rw [finished] at same
    cases same
    exact kept

theorem joins_correct (memory : Int → Entry) (ran : run step actions (initial memory) = some s)
    (roomy : Meets step Roomy actions (initial memory))
    (clean : Meets step CleanJoin actions (initial memory)) :
    (∀ j ∈ s.joins, 0 ≤ j.result ∧ s.slot j.child = j.pid ∧ s.spawner j.child = j.caller ∧
      s.threads j.child = .finished ∧ ∃ v, s.passed j.child = some v ∧ j.result = max v 0) ∧
    (s.joins.map Joined.child).Nodup ∧
    ∀ who c, s.threads who = .idle → 0 < c → c < s.next → s.spawner c = who →
      c ∉ s.joins.map Joined.child → joinCheck s who (s.slot c) = true := by
  have sound : Sound s := run_guarded (fun _ _ _ sound ok next => step_sound sound ok next)
    (initial_sound memory) (roomy.and clean) ran
  refine ⟨?_,sound.log.once,?_⟩
  · intro j member
    obtain ⟨spawner,slot,v,passed,result⟩ := sound.log.sound j member
    exact ⟨by omega,slot,spawner,(sound.log.past j member).2.2,v,passed,result⟩
  · intro who c idle first second mine unjoined
    have present : Present s (s.spawner c) := by
      rw [mine]
      by_cases startup : who = 0
      · exact .inl startup
      · exact .inr ⟨by omega,sound.threads.born_lt (by simp [idle]),by simp [idle]⟩
    obtain ⟨own,used⟩ := sound.entries.kept c first second present unjoined
    have inside := sound.threads.slots c first second
    have built : s.built c = true := by
      by_contra raw
      obtain ⟨executable,at_⟩ := sound.threads.setup c first second (by simpa using raw)
      rw [mine,idle] at at_
      contradiction
    have parent := sound.entries.parent (s.slot c) ⟨inside,used,by rwa [own]⟩ (by rwa [own])
    rw [own,mine] at parent
    simpa [joinCheck,parent,InTable] using inside

def spawnAll (who : Nat) : List Action := [.spawn who [], .spawnInit who, .spawnCount who, .spawnStart who]

def zeroed : Int → Entry := fun _ => ⟨[], .free, 0, 0, 0, 0, 0, 0⟩

/-- The initial program joins the entry 2, which was never used and so has parent 0. Its
child spawns a process there, which finishes with 7. -/
def staleRun : List Action :=
  spawnAll 0 ++ spawnAll 1 ++ [.join 1 2, .joinLocked 1] ++ spawnAll 2 ++ [.finish 3 7, .joinLocked 1]

theorem join_of_foreign_child : ∃ s, run step staleRun (initial zeroed) = some s ∧
    Meets step Roomy staleRun (initial zeroed) ∧ s.joins = [⟨1, 2, 3, 7⟩] ∧ s.spawner 3 = 2 := by
  have reached : ((run step staleRun (initial zeroed)).any fun s =>
      decide (s.joins = [⟨1, 2, 3, 7⟩] ∧ s.spawner 3 = 2)) = true := by decide +kernel
  obtain ⟨s,ran,facts⟩ := (Option.any_eq_true _ _).mp reached
  obtain ⟨joins,spawner⟩ := decide_eq_true_eq.mp facts
  exact ⟨s,ran,by decide +kernel,joins,spawner⟩

/-- Two children are joined, one before and one after it finishes. -/
def cleanRun : List Action :=
  spawnAll 0 ++ spawnAll 1 ++ spawnAll 1 ++ [.finish 2 (-3), .join 1 0, .join 1 2, .joinLocked 1,
    .finish 3 5, .joinLocked 1, .join 1 1, .joinLocked 1]

theorem joins_correct_clean : ∃ s, run step cleanRun (initial zeroed) = some s ∧
    s.joins = [⟨1, 1, 2, 0⟩, ⟨1, 2, 3, 5⟩] ∧ ∃ v, s.passed 2 = some v ∧ 0 = max v 0 := by
  have reached : ((run step cleanRun (initial zeroed)).any fun s =>
      decide (s.joins = [⟨1, 1, 2, 0⟩, ⟨1, 2, 3, 5⟩])) = true := by decide +kernel
  obtain ⟨s,ran,facts⟩ := (Option.any_eq_true _ _).mp reached
  have joins := decide_eq_true_eq.mp facts
  obtain ⟨each,-,-⟩ := joins_correct zeroed ran (by decide +kernel) (by decide +kernel)
  exact ⟨s,ran,joins,(each ⟨1, 1, 2, 0⟩ (by simp [joins])).2.2.2.2⟩

end Buenos.Proc
