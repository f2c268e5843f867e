import Buenos.Proc.ProcessJoin

/-! The indices with which the functions of `proc/process.c` read and write the process table.
The loops of `process_init` and `alloc_process_id` run one entry too far, and the startup
thread's process id is no index at all. -/
namespace Buenos.Proc

open Buenos.Foundation

/-! ### Indices -/

/-- `process_init` resets every entry it counts. -/
def initIndices : List Int := scanned

/-- The scan reads up to the first free entry, which it then fills in. -/
def allocIndices (s : Processes) : List Int :=
  match freeEntry s with
  | none => scanned
  | some pid => (scanned.takeWhile fun i => i ≠ pid) ++ [pid]

def spawnCountIndices (who : Nat) (s : Processes) : List Int := if 0 ≤ s.slot who then [s.slot who] else []

/-- The range is checked before the parent is read. -/
def joinCheckIndices (pid : Int) : List Int := if 0 ≤ pid ∧ pid < processMaxProcesses then [pid] else []

def unlinkIndices (myPid pid : Int) (s : Processes) : List Int :=
  let next := (s.table pid).nextZombie
  if (s.table myPid).firstZombie = pid then [myPid,pid] ++ if 0 ≤ next then [next] else []
  else [myPid,pid,(s.table pid).prevZombie] ++ if 0 ≤ next then [next] else []

/-- A turn of the loop of `process_join`, and what follows it when the child is a zombie. -/
def joinIndices (who : Nat) (pid : Int) (s : Processes) : List Int :=
  if (s.table pid).state = .zombie then
    let t := s.modify pid fun e => { e with retval := -1, parent := -1 }
    if (t.table pid).children = 0 then
      [pid,s.slot who] ++
        unlinkIndices (s.slot who) pid (t.modify (s.slot who) fun e => { e with children := e.children - 1 })
    else [pid]
  else [pid]

def reapIndices : Nat → Int → Processes → List Int
  | 0, _, _ => []
  | fuel + 1, pid, s =>
    let zombie := (s.table pid).firstZombie
    if 0 ≤ zombie then [pid,zombie] ++ reapIndices fuel pid (reapOne pid zombie s) else [pid]

def linkIndices (parent pid : Int) (s : Processes) : List Int :=
  let zombie := (s.table parent).firstZombie
  [pid,parent] ++ if 0 ≤ zombie then [zombie] else []

/-- From the test of the parent on; `again` is the recursive call for it. -/
def giveUpIndices (again : Int → Processes → List Int) (parent pid : Int) (s : Processes) : List Int :=
  if 0 ≤ parent ∧ (s.table parent).state = .zombie then
    let s := s.modify parent fun e => { e with children := e.children - 1 }
    [parent,pid] ++ if (s.table parent).children = 0 ∧ (s.table parent).retval < 0 then again parent s else []
  else if 0 ≤ parent then parent :: linkIndices parent pid (s.modify pid fun e => { e with state := .zombie })
  else [pid]

def finishIndices : Nat → Int → Int → Processes → List Int
  | 0, _, _, _ => []
  | fuel + 1, pid, retval, s =>
    let parent := (s.table pid).parent
    let s := s.modify pid fun e => { e with retval := retval }
    pid :: reapIndices (scanned.length + 1) pid s ++
      match reapZombies (scanned.length + 1) pid s with
      | none => []
      | some s => giveUpIndices (fun parent s => finishIndices fuel parent 0 s) parent pid s

/-- The entries that one step reads or writes. -/
def indices : Action → Processes → List Int
  | .spawn _ _, s => allocIndices s
  | .spawnInit who, s => match s.threads who with
    | .allocated pid _ => [pid]
    | _ => []
  | .spawnCount who, s => spawnCountIndices who s
  | .spawnStart _, _ => []
  | .join _ pid, _ => joinCheckIndices pid
  | .joinLocked who, s => match s.threads who with
    | .entering pid => joinIndices who pid s
    | _ => []
  | .finish who retval, s =>
    finishIndices (scanned.length + 1) (s.slot who) (max retval 0)
      { s.goto who .finished with passed := Function.update s.passed who (some retval) }

/-! ### Safety of a run -/

/-- `alloc_process_id` returns a free entry of the table, or fails when there is none. -/
structure AllocCorrect (s : Processes) : Prop where
  returned : ∀ pid, freeEntry s = some pid → InTable pid ∧ (s.table pid).state = .free
  failed : freeEntry s = none ↔ ∀ p, InTable p → (s.table p).state ≠ .free

structure IndexSafe (memory : Int → Entry) (actions : List Action) : Prop where
  init : ∀ i ∈ initIndices, InTable i
  allocates : ∀ done who executable rest s, actions = done ++ .spawn who executable :: rest →
    run step done (initial memory) = some s → AllocCorrect s
  accesses : ∀ done a rest s, actions = done ++ a :: rest → run step done (initial memory) = some s →
    ∀ i ∈ indices a s, InTable i

theorem tableSlots_iff : p ∈ tableSlots ↔ InTable p := by
  simp only [tableSlots,InTable,processMaxProcesses,List.mem_cons,List.not_mem_nil,or_false]
  omega

/-- The scan reaches the entry behind the table when the table is full, and takes it if it
looks free there. -/
theorem allocCorrect_iff (s : Processes) : AllocCorrect s ↔
    (∃ p, InTable p ∧ (s.table p).state = .free) ∨ (s.table processMaxProcesses).state ≠ .free := by
  constructor
  · intro correct
    by_contra wrong
    simp only [not_or,not_exists,not_and,not_not] at wrong
    obtain ⟨full,behind⟩ := wrong
    have missing := correct.failed.mpr full
    have absent := List.find?_eq_none.mp missing processMaxProcesses (by decide)
    simp [behind] at absent
  · intro room
    by_cases free : ∃ p ∈ tableSlots, (s.table p).state = .free
    · obtain ⟨pid,found,inside,empty⟩ := freeEntry_inside free
      constructor
      · intro other same
        rw [found,Option.some.injEq] at same
        exact same ▸ ⟨inside,empty⟩
      · rw [found]
        exact ⟨nofun,fun full => absurd empty (full pid inside)⟩
    · have full : ∀ p, InTable p → (s.table p).state ≠ .free :=
        fun p inside empty => free ⟨p,tableSlots_iff.mpr inside,empty⟩
      have behind : (s.table processMaxProcesses).state ≠ .free :=
        room.resolve_left fun ⟨p,inside,empty⟩ => full p inside empty
      have missing : freeEntry s = none := by
        apply List.find?_eq_none.mpr
        intro p member
        have split : scanned = tableSlots ++ [processMaxProcesses] := rfl
        rw [split,List.mem_append,List.mem_singleton] at member
        rcases member with member | rfl
        · simpa using full p (tableSlots_iff.mp member)
        · simpa using behind
      constructor
      · intro pid found
        rw [missing] at found
        cases found
      · exact ⟨fun _ => full,fun _ => missing⟩

/-! ### Links lead into the table -/

theorem first_mem (chain : Chain next (-1) first items) (positive : 0 ≤ first) : first ∈ items := by
  cases items with
  | nil =>
    have : first = -1 := chain
    omega
  | cons x rest =>
    rw [chain.1]
    exact List.mem_cons_self

theorem next_mem {next : Int → Int} (chain : Chain next (-1) first items) (member : pid ∈ items)
    (positive : 0 ≤ next pid) : next pid ∈ items := by
  obtain ⟨pre,post,rfl⟩ := List.append_of_mem member
  have later : Chain next (-1) (next pid) post := chain.suffix.2.2
  exact List.mem_append_right pre (List.mem_cons_of_mem pid (first_mem later positive))

theorem prev_mem {prev : Int → Int} (chain : Chain next (-1) first items) (back : Back prev (-1) items)
    (member : pid ∈ items) (other : first ≠ pid) : prev pid ∈ items := by
  obtain ⟨pre,post,rfl⟩ := List.append_of_mem member
  rcases List.eq_nil_or_concat pre with rfl | ⟨front,last,rfl⟩
  · exact absurd chain.1 other
  · rw [List.concat_eq_append,List.append_assoc] at back ⊢
    rw [Back.at back]
    simp

section Steps
variable {s t : Processes}

theorem reapIndices_mem (chain : Chain (fun p => (s.table p).nextZombie) (-1) (s.table q).firstZombie items)
    (member : i ∈ reapIndices fuel q s) : i = q ∨ i ∈ items := by
  induction fuel generalizing s items with
  | zero => cases member
  | succ fuel ih =>
    rw [reapIndices] at member
    split at member
    · next positive =>
      have first := first_mem chain positive
      cases items with
      | nil => cases first
      | cons z rest =>
        have head : (s.table q).firstZombie = z := chain.1
        rw [head] at member
        have links : ∀ p, ((reapOne q z s).table p).nextZombie = (s.table p).nextZombie := by
          intro p
          simp only [reapOne,modify_table]
          split <;> split <;> rfl
        have begins : ((reapOne q z s).table q).firstZombie = (s.table z).nextZombie := by simp [reapOne]
        have later : Chain (fun p => ((reapOne q z s).table p).nextZombie) (-1)
            ((reapOne q z s).table q).firstZombie rest := by
          simpa only [links,begins] using chain.2.2
        rcases List.mem_append.mp member with here | there
        · rcases List.mem_cons.mp here with rfl | here
          · exact .inl rfl
          · rw [List.mem_singleton.mp here]
            exact .inr List.mem_cons_self
        · rcases ih later there with same | inside
          · exact .inl same
          · exact .inr (List.mem_cons_of_mem z inside)
    · exact .inl (List.mem_singleton.mp member)

/-- The loop over the zombie children of an entry in use. -/
theorem Sound.reapIndices_inside (sound : Sound s) (ready : Ready s q) (member : i ∈ reapIndices fuel q s) :
    InTable i := by
  obtain ⟨lists,list⟩ := sound.lists
  obtain ⟨items,listed⟩ := Option.ne_none_iff_exists'.mp (list.ready q ready)
  have members := list.members q items listed
  rcases reapIndices_mem (list.chain q items listed).1 member with rfl | inside
  · exact ready.1
  · exact (members i inside).1.1

/-- The recursive call of `finish_given_process`, for a parent that was joined. -/
theorem Sound.parentIndices_inside (sound : Sound s) (inside : InTable q) (zombie : (s.table q).state = .zombie)
    (negative : (s.table q).retval < 0) (member : i ∈ finishIndices (fuel + 1) q 0 s) : InTable i := by
  have ready := sound.threads.zombie_built inside zombie
  have joined : WasJoined s (s.occupant q) := by
    by_contra unjoined
    obtain ⟨v,-,value⟩ := sound.entries.retval q ready zombie unjoined
    omega
  have parent : (s.table q).parent = -1 := (sound.entries.joined q ready joined).1
  have first := sound.setRetval q 0 fun _ _ => joined
  have same : ((s.modify q fun e => { e with retval := 0 }).table q).state = .zombie := by simp [zombie]
  have ready' := first.threads.zombie_built inside same
  rw [finishIndices,List.mem_append,List.mem_cons] at member
  rcases member with (rfl | member) | member
  · exact inside
  · exact first.reapIndices_inside ready' member
  · split at member
    · cases member
    · rw [giveUpIndices,parent,if_neg (by omega),if_neg (by omega),List.mem_singleton] at member
      exact member ▸ inside

theorem Leaving.giveUpIndices_inside (leaving : Leaving who pid s)
    (member : i ∈ giveUpIndices (fun parent s => finishIndices (fuel + 1) parent 0 s) (s.table pid).parent pid s) :
    InTable i := by
  have mine := leaving.ready.1
  rw [giveUpIndices] at member
  split at member
  · next dead =>
    obtain ⟨positive,zombie⟩ := dead
    have inside := (leaving.parent_inside positive).2
    rcases List.mem_append.mp member with here | there
    · rcases List.mem_cons.mp here with rfl | here
      · exact inside
      · rw [List.mem_singleton.mp here]
        exact mine
    · split at there
      · next final =>
        have sound := leaving.sound.children (s.table pid).parent fun n => n - 1
        exact sound.parentIndices_inside inside (by simpa using zombie) final.2 there
      · cases there
  · split at member
    · next positive =>
      obtain ⟨process,inside⟩ := leaving.parent_inside positive
      rcases List.mem_cons.mp member with rfl | member
      · exact inside
      rcases List.mem_append.mp member with here | there
      · rcases List.mem_cons.mp here with rfl | here
        · exact mine
        · rw [List.mem_singleton.mp here]
          exact inside
      · split at there
        · next linked =>
          have same : ((s.modify pid fun e => { e with state := .zombie }).table (s.table pid).parent).firstZombie =
              (s.table (s.table pid).parent).firstZombie := by
            rw [modify_table]
            split
            · next here => rw [here]
            · rfl
          rw [same] at linked there
          rw [List.mem_singleton.mp there]
          obtain ⟨lists,list⟩ := leaving.sound.lists
          obtain ⟨first,slot⟩ := leaving.sound.threads.occupied pid mine leaving.ready.2.1
          have listed := list.parents _ first (leaving.sound.threads.occupants pid) (by rwa [leaving.occupant])
          rw [leaving.occupant,← leaving.parent] at listed
          obtain ⟨items,at_⟩ := Option.ne_none_iff_exists'.mp listed
          have first := first_mem (list.chain _ items at_).1 linked
          exact (list.members _ items at_ _ first).1.1
        · cases there
    · rw [List.mem_singleton.mp member]
      exact mine

theorem Sound.finishIndices_inside (sound : Sound s) (idle : s.threads who = .idle) (process : 0 < who) (v : Int)
    (member : i ∈ indices (.finish who v) s) : InTable i := by
  obtain ⟨stored,ready⟩ := sound.finish_stored idle process v
  obtain ⟨items,outside,leaving,-,reaped⟩ := sound.finish_reap idle process v
  have same : ((leavingState who v items s).table (s.slot who)).parent = (s.table (s.slot who)).parent := by
    rw [leavingState_table,if_neg outside,if_pos rfl]
  have rest : i ∈ s.slot who :: reapIndices (scanned.length + 1) (s.slot who) (finishedState who v s) ++
      match reapZombies (scanned.length + 1) (s.slot who) (finishedState who v s) with
      | none => []
      | some t => giveUpIndices (fun parent s => finishIndices scanned.length parent 0 s)
          (s.table (s.slot who)).parent (s.slot who) t := member
  rw [reaped,List.mem_append,List.mem_cons] at rest
  rcases rest with (rfl | loop) | after
  · exact ready.1
  · exact stored.reapIndices_inside ready loop
  · rw [← same] at after
    exact leaving.giveUpIndices_inside after

/-! ### Joins -/

/-- The list of zombies of the caller of `process_join` and the fields it reads of it. -/
theorem Sound.unlinkIndices_inside (sound : Sound s) (at_ : s.threads who = .entering pid)
    (zombie : (s.table pid).state = .zombie) (process : who ≠ 0) (member : i ∈ unlinkIndices (s.slot who) pid s) :
    InTable i := by
  obtain ⟨ready,mine,-⟩ := sound.waiters.joining who pid (by simp [at_,Phase.joins])
  have living : Alive s who := ⟨by omega,sound.threads.born_lt (by simp [at_]),by simp [at_]⟩
  have own := sound.threads.slots who living.1 living.2.1
  obtain ⟨lists,list⟩ := sound.lists
  obtain ⟨items,listed,inside⟩ := list.mine pid ready zombie (by rwa [mine])
  rw [mine] at listed
  obtain ⟨chain,back⟩ := list.chain _ items listed
  have members : ∀ z ∈ items, InTable z := fun z there => (list.members _ items listed z there).1.1
  have next : 0 ≤ (s.table pid).nextZombie → InTable (s.table pid).nextZombie :=
    fun positive => members _ (next_mem chain inside positive)
  rw [unlinkIndices] at member
  split at member
  · simp only [List.mem_append,List.mem_cons,List.not_mem_nil,or_false] at member
    rcases member with (rfl | rfl) | member
    · exact own
    · exact ready.1
    · split at member
      · next positive => exact List.mem_singleton.mp member ▸ next positive
      · cases member
  · next other =>
    simp only [List.mem_append,List.mem_cons,List.not_mem_nil,or_false] at member
    rcases member with (rfl | rfl | rfl) | member
    · exact own
    · exact ready.1
    · exact members _ (prev_mem chain back inside other)
    · split at member
      · next positive => exact List.mem_singleton.mp member ▸ next positive
      · cases member

theorem unlinkIndices_congr (same : ∀ p, (t.table p).firstZombie = (s.table p).firstZombie ∧
      (t.table p).nextZombie = (s.table p).nextZombie ∧ (t.table p).prevZombie = (s.table p).prevZombie) :
    unlinkIndices q pid t = unlinkIndices q pid s := by
  unfold unlinkIndices
  rw [(same q).1,(same pid).2.1,(same pid).2.2]

/-- The initial program is in no list: the startup thread reaches entry -1 only. -/
theorem Sound.startupIndices (sound : Sound s) (at_ : s.threads 0 = .entering pid)
    (member : i ∈ unlinkIndices (s.slot 0) pid s) : i = pid ∨ i = -1 := by
  obtain ⟨ready,mine,-⟩ := sound.waiters.joining 0 pid (by simp [at_,Phase.joins])
  obtain ⟨lists,list⟩ := sound.lists
  have prev := list.lonely pid ready (.inr mine)
  have next := list.single pid ready mine
  rw [unlinkIndices,sound.threads.startup,next,prev,if_neg (by omega : ¬(0 : Int) ≤ -1),List.append_nil,List.append_nil] at member
  split at member
  · simp only [List.mem_cons,List.not_mem_nil,or_false] at member
    exact member.symm
  · simp only [List.mem_cons,List.not_mem_nil,or_false] at member
    rcases member with there | here | there
    · exact .inr there
    · exact .inl here
    · exact .inr there

theorem Sound.joinIndices_inside (sound : Sound s) (at_ : s.threads who = .entering pid)
    (member : i ∈ joinIndices who pid s) : InTable i ∨ i = -1 ∧ who = 0 := by
  obtain ⟨ready,mine,-⟩ := sound.waiters.joining who pid (by simp [at_,Phase.joins])
  rw [joinIndices] at member
  split at member
  · next zombie =>
    dsimp only at member
    split at member
    · rw [unlinkIndices_congr (s := s) ?_] at member
      · by_cases startup : who = 0
        · subst startup
          rcases List.mem_append.mp member with here | there
          · rw [sound.threads.startup,List.mem_cons,List.mem_singleton] at here
            rcases here with rfl | rfl
            · exact .inl ready.1
            · exact .inr ⟨rfl,rfl⟩
          · rcases sound.startupIndices at_ there with rfl | rfl
            · exact .inl ready.1
            · exact .inr ⟨rfl,rfl⟩
        · have own := sound.threads.slots who (by omega) (sound.threads.born_lt (by simp [at_]))
          rcases List.mem_append.mp member with here | there
          · rw [List.mem_cons,List.mem_singleton] at here
            rcases here with rfl | rfl
            · exact .inl ready.1
            · exact .inl own
          · exact .inl (sound.unlinkIndices_inside at_ zombie startup there)
      · intro p
        simp only [modify_table]
        split <;> split <;> simp_all
    · exact .inl (List.mem_singleton.mp member ▸ ready.1)
  · exact .inl (List.mem_singleton.mp member ▸ ready.1)

/-! ### All steps -/

theorem Sound.indices_inside (sound : Sound s) (room : Roomy a s) (enabled : step a s = some t)
    (member : i ∈ indices a s) : InTable i ∨ i = -1 ∧ a = .joinLocked 0 := by
  cases a with
  | spawn who executable =>
    obtain ⟨pid,found,inside,-⟩ := freeEntry_inside room
    have early : ∀ pid ∈ tableSlots, ∀ i ∈ (scanned.takeWhile fun i => i ≠ pid) ++ [pid], i ∈ tableSlots := by decide
    simp only [indices,allocIndices,found] at member
    exact .inl (tableSlots_iff.mp (early pid (tableSlots_iff.mpr inside) i member))
  | spawnInit who =>
    simp only [indices] at member
    split at member
    · next pid executable at_ =>
      have spawning := sound.threads.spawning who pid (by simp [at_,Phase.spawns])
      exact .inl (List.mem_singleton.mp member ▸ spawning.1)
    · cases member
  | spawnCount who =>
    simp only [indices,spawnCountIndices] at member
    split at member
    · next positive =>
      have process : who ≠ 0 := by
        rintro rfl
        rw [sound.threads.startup] at positive
        omega
      have born : s.threads who ≠ .absent := by
        intro absent
        simp [step,absent] at enabled
      have own := sound.threads.slots who (by omega) (sound.threads.born_lt born)
      exact .inl (List.mem_singleton.mp member ▸ own)
    · cases member
  | spawnStart who => cases member
  | join who pid =>
    simp only [indices,joinCheckIndices] at member
    split at member
    · next inside => exact .inl (List.mem_singleton.mp member ▸ inside)
    · cases member
  | joinLocked who =>
    simp only [indices] at member
    split at member
    · next pid at_ =>
      rcases sound.joinIndices_inside at_ member with inside | ⟨rfl,rfl⟩
      · exact .inl inside
      · exact .inr ⟨rfl,rfl⟩
    · cases member
  | finish who retval =>
    simp only [step] at enabled
    split at enabled
    · next ready =>
      exact .inl (sound.finishIndices_inside ready.1 (Nat.pos_of_ne_zero ready.2) retval member)
    · cases enabled

end Steps

/-- `process_init` leaves the table in every run. Apart from that, while no more than
`PROCESS_MAX_PROCESSES` entries are used and joins are of own children, the indices are inside the
table, but for the startup thread's -1 in its join. -/
theorem process_indices (memory : Int → Entry) :
    (∀ actions, ¬IndexSafe memory actions) ∧
    (∀ s, AllocCorrect s ↔
      (∃ p, InTable p ∧ (s.table p).state = .free) ∨ (s.table processMaxProcesses).state ≠ .free) ∧
    ∀ done a s t, Meets step (fun a s => Roomy a s ∧ CleanJoin a s) done (initial memory) →
      run step done (initial memory) = some s → Roomy a s → step a s = some t →
      ∀ i ∈ indices a s, InTable i ∨ i = -1 ∧ a = .joinLocked 0 := by
  refine ⟨?_,allocCorrect_iff,?_⟩
  · intro actions safe
    exact absurd (safe.init processMaxProcesses (by decide)) (by decide)
  · intro done a s t meets ran room enabled i member
    have sound : Sound s := run_guarded (fun _ _ _ sound ok next => step_sound sound ok next)
      (initial_sound memory) meets ran
    exact sound.indices_inside room enabled member

/-- The startup thread spawns the initial program, which finishes and is joined. -/
def startupRun : List Action := spawnAll 0 ++ [.finish 1 0,.join 0 0]

theorem startup_join_outside : ∃ s t, run step startupRun (initial zeroed) = some s ∧
    step (.joinLocked 0) s = some t ∧ -1 ∈ indices (.joinLocked 0) s ∧
    processMaxProcesses ∈ initIndices ∧ ¬IndexSafe zeroed (startupRun ++ [.joinLocked 0]) := by
  have reached : ((run step startupRun (initial zeroed)).any fun s =>
      (step (.joinLocked 0) s).isSome && decide (-1 ∈ indices (.joinLocked 0) s)) = true := by decide +kernel
  obtain ⟨s,ran,facts⟩ := (Option.any_eq_true _ _).mp reached
  obtain ⟨enabled,outside⟩ := Bool.and_eq_true_iff.mp facts
  obtain ⟨t,next⟩ := Option.isSome_iff_exists.mp enabled
  have outside := of_decide_eq_true outside
  refine ⟨s,t,ran,next,outside,by decide,fun safe => ?_⟩
  exact absurd (safe.accesses startupRun _ [] s rfl ran (-1) outside) (by decide)

end Buenos.Proc
