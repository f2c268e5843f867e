import Buenos.Proc.ProcessInvariant
import Mathlib.Data.List.Perm.Subperm

/-! `process_finish` returns and keeps the invariant: the zombie children are reaped and the
entry is given up, linked to its parent or left for the startup thread. -/
namespace Buenos.Proc

open Buenos.Foundation

section Steps
variable {s : Processes}

def reaped (q : Int) (items : List Int) (table : Int → Entry) (p : Int) : Entry :=
  if p ∈ items then { table p with state := .free, retval := -1, parent := -1 }
  else if p = q then { table q with
    firstZombie := -1, children := (table q).children - items.length }
  else table p

theorem reapZombies_eq (chain : Chain (fun p => (s.table p).nextZombie) (-1) (s.table q).firstZombie items)
    (inside : ∀ z ∈ items, 0 ≤ z ∧ z ≠ q) (enough : items.length < fuel) :
    reapZombies fuel q s = some { s with table := reaped q items s.table } := by
  -- along the list, with the entries reaped so far as part of the state
  induction items generalizing s fuel with
  | nil =>
    obtain ⟨fuel,rfl⟩ := Nat.exists_eq_add_of_lt enough
    have empty : (s.table q).firstZombie = -1 := chain
    have same : reaped q [] s.table = s.table := by
      funext p
      by_cases here : p = q
      · subst here; simp [reaped,← empty]
      · simp [reaped,here]
    simp [reapZombies,empty,same]
  | cons z rest ih =>
    obtain ⟨fuel,rfl⟩ : ∃ n, fuel = n + 1 := ⟨fuel - 1,by simp at enough; omega⟩
    have first : (s.table q).firstZombie = z := chain.1
    obtain ⟨positive,apart⟩ := inside z List.mem_cons_self
    have links : ∀ p, ((reapOne q z s).table p).nextZombie = (s.table p).nextZombie := by
      intro p
      simp only [reapOne,modify_table]
      split <;> split <;> rfl
    have head : ((reapOne q z s).table q).firstZombie = (s.table z).nextZombie := by
      simp [reapOne]
    have later : Chain (fun p => ((reapOne q z s).table p).nextZombie) (-1)
        ((reapOne q z s).table q).firstZombie rest := by
      simpa only [links,head] using chain.2.2
    have fresh : z ∉ rest := (List.nodup_cons.mp chain.nodup).1
    have result := ih later (fun w member => inside w (List.mem_cons_of_mem z member))
      (show rest.length < fuel by simp at enough; omega)
    rw [reapZombies]
    simp only [first,positive,↓reduceIte,result]
    congr 1
    have table : reaped q rest (reapOne q z s).table = reaped q (z :: rest) s.table := by
      funext p
      by_cases here : p = q
      · subst here
        have outside : p ∉ rest := fun member => (inside p (List.mem_cons_of_mem z member)).2 rfl
        have length : (s.table p).children - 1 - (rest.length : Int) =
            (s.table p).children - ((rest.length : Int) + 1) := by omega
        simp [reaped,outside,Ne.symm apart,reapOne,length]
      · by_cases zombie : p = z
        · subst zombie
          simp [reaped,fresh,here,reapOne]
        · by_cases member : p ∈ rest <;> simp [reaped,member,zombie,here,reapOne]
    rw [← table]
    rfl

theorem length_scanned {items : List Int} (nodup : items.Nodup) (inside : ∀ z ∈ items, InTable z) :
    items.length ≤ scanned.length := by
  refine (List.subperm_of_subset nodup fun z member => ?_).length_le
  obtain ⟨low,high⟩ := inside z member
  simp only [processMaxProcesses] at high
  simp only [scanned,List.mem_cons]
  omega

theorem Sound.reap (sound : Sound s) (listed : ∀ lists, Lists s lists → lists q ≠ none)
    (vacant : Vacant s q) : ∃ items,
      Chain (fun p => (s.table p).nextZombie) (-1) (s.table q).firstZombie items ∧
      reapZombies (scanned.length + 1) q s =
        some { s with table := reaped q items s.table } ∧ q ∉ items ∧
      (∀ z ∈ items, (s.table z).state = .zombie) ∧ Sound { s with table := reaped q items s.table } := by
  obtain ⟨lists,list⟩ := sound.lists
  obtain ⟨items,at_⟩ := Option.ne_none_iff_exists'.mp (listed lists list)
  have chain := (list.chain q items at_).1
  have members := list.members q items at_
  have outside : q ∉ items := fun member => (members q member).2.2.2 rfl
  have length := length_scanned chain.nodup fun z member => (members z member).1.1
  refine ⟨items,chain,reapZombies_eq chain (fun z member => ⟨(members z member).1.1.1,(members z member).2.2.2⟩)
    (by omega),outside,fun z member => (members z member).2.1,?_⟩
  refine sound.freed (· ∈ items) ?_ ?_ ?_ ?_ ?_ ?_ ?_
  · intro p
    unfold reaped
    split
    · exact ⟨rfl,rfl⟩
    · split
      · next here => subst here; exact ⟨rfl,rfl⟩
      · exact ⟨rfl,rfl⟩
  · intro p member
    simp [reaped,member]
  · intro p member
    unfold reaped
    rw [if_neg member]
    split
    · next here => subst here; exact ⟨rfl,rfl,rfl⟩
    · exact ⟨rfl,rfl,rfl⟩
  · intro p member c living slot
    have running := (sound.threads.alive c living).2
    rw [slot,(members p member).2.1] at running
    contradiction
  · exact fun p member _ => list.orphan at_ member vacant
  · exact fun p member _ => (members p member).1.2.2
  · intro lists' list'
    obtain ⟨items',at'⟩ := Option.ne_none_iff_exists'.mp (listed lists' list')
    obtain rfl : items' = items := ((list'.chain q items' at').1).unique chain
    refine ⟨Function.update lists' q (some []),?_,?_,?_,?_⟩
    · intro r others here
      by_cases same : r = q
      · subst same
        rw [Function.update_self] at here
        cases here
        exact ⟨items',at',by simp⟩
      · rw [Function.update_of_ne same] at here
        exact ⟨others,here,fun z member => ⟨member,fun other =>
          same (list'.disjoint r q others items' z here at' member other)⟩⟩
    · intro r known
      by_cases same : r = q <;> simp [same,known]
    · intro r whole here z member alive occupied
      have same : r ≠ q := by rintro rfl; exact occupied vacant
      exact ⟨whole,by simpa [same] using here,member⟩
    · intro r others here
      by_cases same : r = q
      · subst same
        rw [Function.update_self] at here
        cases here
        simp [reaped,outside,Chain,Back]
      · rw [Function.update_of_ne same] at here
        have first : (reaped q items' s.table r).firstZombie = (s.table r).firstZombie := by
          unfold reaped
          rw [if_neg same]
          split <;> rfl
        rw [first]
        exact list'.chain r others here

theorem Sound.release (sound : Sound s) (ready : Ready s p) (running : (s.table p).state = .running)
    (vacant : Vacant s p) (orphan : ¬Present s (s.spawner (s.occupant p))) :
    Sound (s.modify p fun e => { e with state := .free }) := by
  refine sound.freed (· = p) ?_ ?_ ?_ ?_ ?_ ?_ ?_
  · intro q
    by_cases same : q = p
    · subst same; simp
    · simp [same]
  · rintro q rfl; simp
  · intro q apart; simp [apart]
  · rintro q rfl; exact vacant
  · rintro q rfl - ⟨present,-⟩; exact orphan present
  · rintro q rfl -; exact ready.2.2
  · intro lists list
    refine ⟨lists,fun q items at_ => ⟨items,at_,fun z member => ⟨member,?_⟩⟩,fun _ h => h,
      fun q whole at_ z member _ _ => ⟨whole,at_,member⟩,fun q items at_ => ?_⟩
    · rintro rfl; exact list.unlisted running at_ member
    · have first : ((Function.update s.table p { s.table p with state := .free }) q).firstZombie =
          (s.table q).firstZombie := by
        by_cases same : q = p
        · subst same; simp
        · simp [same]
      rw [first]
      exact list.chain q items at_

theorem Sound.zombie (sound : Sound s) (ready : Ready s pid) (vacant : Vacant s pid)
    (result : ∃ v, s.passed (s.occupant pid) = some v ∧ (s.table pid).retval = max v 0)
    (startup : s.spawner (s.occupant pid) = 0) :
    Sound (s.modify pid fun e => { e with state := .zombie }) := by
  obtain ⟨threads,waiters,entries,⟨lists,list⟩,log⟩ := sound
  let t := s.modify pid fun e => { e with state := .zombie }
  change Sound t
  have others : ∀ p, p ≠ pid → t.table p = s.table p := by
    intro p apart
    simp [t,apart]
  have fields : ∀ p, (t.table p).parent = (s.table p).parent ∧ (t.table p).retval = (s.table p).retval ∧
      (t.table p).firstZombie = (s.table p).firstZombie ∧
      (t.table p).prevZombie = (s.table p).prevZombie ∧ (t.table p).nextZombie = (s.table p).nextZombie := by
    intro p
    by_cases same : p = pid
    · subst same; simp [t]
    · simp [others p same]
  have used : ∀ p, (t.table p).state = .free ↔ (s.table p).state = .free := by
    intro p
    by_cases same : p = pid
    · subst same; simpa [t] using ready.2.1
    · rw [others p same]
  have still : ∀ p, Ready t p ↔ Ready s p := by
    intro p
    unfold Ready
    rw [Ne,used]
    rfl
  refine ⟨?_,?_,?_,⟨lists,?_⟩,⟨log.sound,log.once,log.past,log.startup⟩⟩
  · refine ⟨threads.startup,threads.born,threads.unborn,threads.occupants,threads.slots,?_,?_,
      threads.spawners,threads.apart,threads.spawning,threads.built,threads.counted,threads.unbuilt,threads.setup⟩
    · intro c living
      obtain ⟨mine,running⟩ := threads.alive c living
      refine ⟨mine,?_⟩
      change (t.table (s.slot c)).state = .running
      rw [others _ (vacant c living)]
      exact running
    · intro p inside state
      exact threads.occupied p inside (by rwa [Ne,used] at state)
  · exact ⟨fun who p joining => (waiters.joining who p joining).imp_left (still p).mpr,
      waiters.queue,waiters.once⟩
  · refine ⟨?_,?_,?_,?_⟩
    · intro p at_ unjoined
      exact (fields p).1.trans (entries.parent p ((still p).mp at_) unjoined)
    · intro p at_ joined
      obtain ⟨first,second⟩ := entries.joined p ((still p).mp at_) joined
      refine ⟨(fields p).1.trans first,?_⟩
      by_cases same : p = pid
      · simp [t,same]
      · rw [others p same,second]
    · intro p at_ zombie unjoined
      by_cases same : p = pid
      · subst same
        obtain ⟨v,passed,value⟩ := result
        exact ⟨v,passed,(fields p).2.1.trans value⟩
      · rw [others p same] at zombie ⊢
        exact entries.retval p ((still p).mp at_) zombie unjoined
    · intro c small large present unjoined
      exact (entries.kept c small large present unjoined).imp_right fun state => by rwa [Ne,used]
  · refine ⟨?_,?_,list.disjoint,fun p at_ => list.ready p ((still p).mp at_),list.parents,?_,?_,?_,
      list.inside⟩
    · simpa only [fields] using list.chain
    · intro q items at_ z member
      obtain ⟨made,zombie,process,apart⟩ := list.members q items at_ z member
      refine ⟨(still z).mpr made,?_,process,apart⟩
      rw [others z (by rintro rfl; exact process startup),zombie]
    · intro p at_ zombie living
      have apart : p ≠ pid := by
        rintro rfl
        have positive := living.1
        change 0 < s.spawner (s.occupant p) at positive
        omega
      rw [others p apart] at zombie
      exact list.mine p ((still p).mp at_) zombie living
    · intro p at_ quiet
      refine (fields p).2.2.2.1.trans (list.lonely p ((still p).mp at_) ?_)
      by_cases same : p = pid
      · subst same; exact .inr startup
      · rwa [others p same] at quiet
    · intro p at_ process
      exact (fields p).2.2.2.2.trans (list.single p ((still p).mp at_) process)

/-- What `finish_given_process` does to the fields when it links a zombie to its parent. -/
theorem linkZombie_table (apart : q ≠ pid) (other : 0 ≤ (s.table q).firstZombie →
      (s.table q).firstZombie ≠ pid ∧ (s.table q).firstZombie ≠ q) (p : Int) :
    (linkZombie q pid s).table p = { s.table p with
      state := if p = pid then .zombie else (s.table p).state
      firstZombie := if p = q then pid else (s.table p).firstZombie
      nextZombie := if p = pid then (s.table q).firstZombie else (s.table p).nextZombie
      prevZombie := if 0 ≤ (s.table q).firstZombie ∧ p = (s.table q).firstZombie then pid
        else (s.table p).prevZombie } := by
  by_cases some : 0 ≤ (s.table q).firstZombie
  · obtain ⟨first,second⟩ := other some
    by_cases here : p = pid
    · subst here
      simp [linkZombie,some,apart,Ne.symm apart,Ne.symm first]
    · by_cases there : p = q
      · subst there
        simp [linkZombie,some,here,Ne.symm second]
      · by_cases head : p = (s.table q).firstZombie
        · subst head
          simp [linkZombie,some,here,there,apart]
        · simp [linkZombie,some,here,there,apart,head]
  · by_cases here : p = pid
    · subst here
      simp [linkZombie,some,apart,Ne.symm apart]
    · by_cases there : p = q
      · subst there
        simp [linkZombie,some,here]
      · simp [linkZombie,some,here,there,apart]

theorem linkZombie_rest (q pid : Int) (s : Processes) :
    linkZombie q pid s = { s with table := (linkZombie q pid s).table } := by
  unfold linkZombie
  dsimp only
  split <;> rfl

/-- The first zombie of a running process's parent is a third entry. -/
theorem Sound.first_apart (sound : Sound s) (ready : Ready s pid) (running : (s.table pid).state = .running)
    (process : s.spawner (s.occupant pid) ≠ 0) (parent : q = s.slot (s.spawner (s.occupant pid))) :
    q ≠ pid ∧ (0 ≤ (s.table q).firstZombie →
      (s.table q).firstZombie ≠ pid ∧ (s.table q).firstZombie ≠ q) := by
  obtain ⟨lists,list⟩ := sound.lists
  obtain ⟨positive,slot⟩ := sound.threads.occupied pid ready.1 ready.2.1
  have small := sound.threads.occupants pid
  obtain ⟨items,at_⟩ := Option.ne_none_iff_exists'.mp
    (parent ▸ list.parents _ positive small process : lists q ≠ none)
  constructor
  · rw [parent]
    nth_rewrite 2 [← slot]
    exact sound.threads.apart _ positive small
  · intro low
    have first := (list.chain q items at_).1.first_eq
    have member : (s.table q).firstZombie ∈ items := by
      cases items with
      | nil => rw [first] at low; simp at low
      | cons z rest => simp [first]
    obtain ⟨-,zombie,-,apart⟩ := list.members q items at_ _ member
    refine ⟨fun same => ?_,apart⟩
    rw [same,running] at zombie
    contradiction

/-- The table in which a running process has become the first zombie of the list from `q`. -/
structure Links (s : Processes) (q pid : Int) (after : Int → Entry) : Prop where
  running : (s.table pid).state = .running
  table : ∀ p, after p = { s.table p with
      state := if p = pid then .zombie else (s.table p).state
      firstZombie := if p = q then pid else (s.table p).firstZombie
      nextZombie := if p = pid then (s.table q).firstZombie else (s.table p).nextZombie
      prevZombie := if 0 ≤ (s.table q).firstZombie ∧ p = (s.table q).firstZombie then pid
        else (s.table p).prevZombie }

section Links
variable {after : Int → Entry} (links : Links s q pid after)
include links

theorem Links.used (p : Int) : (after p).state = .free ↔ (s.table p).state = .free := by
  rw [links.table]
  by_cases here : p = pid
  · subst here; simp [links.running]
  · simp [here]

theorem Links.still (p : Int) : Ready { s with table := after } p ↔ Ready s p := by
  unfold Ready
  rw [Ne,links.used]

theorem Links.state (apart : p ≠ pid) : (after p).state = (s.table p).state := by
  simp [links.table,apart]

theorem Links.next : (fun p => (after p).nextZombie) =
    Function.update (fun p => (s.table p).nextZombie) pid (s.table q).firstZombie := by
  funext p
  by_cases here : p = pid
  · subst here; simp [links.table]
  · simp [links.table,here]

theorem Threads.link (threads : Threads s) (vacant : Vacant s pid) : Threads { s with table := after } := by
  refine ⟨threads.startup,threads.born,threads.unborn,threads.occupants,threads.slots,?_,?_,
    threads.spawners,threads.apart,threads.spawning,threads.built,threads.counted,threads.unbuilt,threads.setup⟩
  · intro c living
    exact (threads.alive c living).imp_right (links.state (vacant c living)).trans
  · intro p inside used
    exact threads.occupied p inside (by rwa [Ne,links.used] at used)

theorem Entries.link (entries : Entries s) (unjoined : ¬WasJoined s (s.occupant pid))
    (result : ∃ v, s.passed (s.occupant pid) = some v ∧ (s.table pid).retval = max v 0) :
    Entries { s with table := after } := by
  refine ⟨?_,?_,?_,?_⟩
  · intro p made unjoined
    rw [← entries.parent p ((links.still p).mp made) unjoined]
    simp [links.table]
  · intro p made joined
    have here : p ≠ pid := by rintro rfl; exact unjoined joined
    obtain ⟨first,second⟩ := entries.joined p ((links.still p).mp made) joined
    exact ⟨by simp [links.table,first],(links.state here).trans second⟩
  · intro p made zombie unjoined
    have value : (after p).retval = (s.table p).retval := by simp [links.table]
    rw [value]
    by_cases here : p = pid
    · subst here; exact result
    · exact entries.retval p ((links.still p).mp made) ((links.state here).symm.trans zombie) unjoined
  · intro c small large present unjoined
    exact (entries.kept c small large present unjoined).imp_right fun free => by rwa [Ne,links.used]

theorem Links.prev (chain : Chain f (-1) (s.table q).firstZombie items) (outside : p ∉ items) :
    (after p).prevZombie = (s.table p).prevZombie := by
  simp only [links.table]
  refine if_neg fun here => outside ?_
  rw [here.2]
  have first := chain.first_eq
  cases items with
  | nil =>
    rw [first] at here
    simp at here
  | cons z rest => simp [first]

theorem Links.push (list : Lists s lists) (ready : Ready s pid) (at_ : lists q = some items) :
    Chain (fun p => (after p).nextZombie) (-1) (after q).firstZombie (pid :: items) ∧
      Back (fun p => (after p).prevZombie) (-1) (pid :: items) := by
  obtain ⟨chain,back⟩ := list.chain q items at_
  have fresh := list.unlisted links.running at_
  constructor
  · have start : (after q).firstZombie = pid := by simp [links.table]
    rw [start,links.next]
    exact chain.push fresh (by have := ready.1.1; omega)
  · refine ⟨(links.prev chain fresh).trans (list.lonely pid ready (.inl links.running)),?_⟩
    cases items with
    | nil => trivial
    | cons z rest =>
      have first : (s.table q).firstZombie = z := chain.1
      have low : 0 ≤ z := (list.members q _ at_ z List.mem_cons_self).1.1.1
      refine ⟨by simp [links.table,first,low],back.2.congr fun p member => ?_⟩
      have outside : p ≠ z := by
        rintro rfl
        exact (List.nodup_cons.mp chain.nodup).1 member
      simp [links.table,first,outside]

theorem Links.elsewhere (list : Lists s lists) (at_ : lists q = some items) (here : lists r = some others) (different : r ≠ q) :
    Chain (fun p => (after p).nextZombie) (-1) (after r).firstZombie others ∧
      Back (fun p => (after p).prevZombie) (-1) others := by
  obtain ⟨chain,_⟩ := list.chain q items at_
  obtain ⟨chain',back'⟩ := list.chain r others here
  have start : (after r).firstZombie = (s.table r).firstZombie := by simp [links.table,different]
  rw [start,links.next]
  refine ⟨chain'.congr fun p member => ?_,back'.congr fun p member => links.prev chain fun other => ?_⟩
  · have : p ≠ pid := fun same => list.unlisted links.running here (same ▸ member)
    simp [this]
  · exact different (list.disjoint r q others items p here at_ member other)

theorem Lists.link (list : Lists s lists) (ready : Ready s pid) (apart : q ≠ pid)
    (process : s.spawner (s.occupant pid) ≠ 0) (parent : q = s.slot (s.spawner (s.occupant pid)))
    (at_ : lists q = some items) :
    Lists { s with table := after } (Function.update lists q (some (pid :: items))) := by
  have still := links.still
  have chain := (list.chain q items at_).1
  have members := list.members q items at_
  have unlisted : ∀ r others, lists r = some others → pid ∉ others := fun r others => list.unlisted links.running
  refine ⟨?_,?_,?_,fun p made => update_known (list.ready p ((still p).mp made)) q _,
    fun c small large process => update_known (list.parents c small large process) q _,?_,?_,?_,?_⟩
  · intro r others given
    rcases update_some given with ⟨rfl,rfl⟩ | ⟨different,here⟩
    · exact links.push list ready at_
    · exact links.elsewhere list at_ here different
  · intro r others given z member
    rcases update_some given with ⟨rfl,rfl⟩ | ⟨different,here⟩
    · rcases List.mem_cons.mp member with rfl | old
      · exact ⟨(still z).mpr ready,by simp [links.table],process,Ne.symm apart⟩
      · obtain ⟨made,zombie,spawned,other⟩ := members z old
        have : z ≠ pid := fun same => unlisted r items at_ (same ▸ old)
        exact ⟨(still z).mpr made,(links.state this).trans zombie,spawned,other⟩
    · obtain ⟨made,zombie,spawned,other⟩ := list.members r others here z member
      have : z ≠ pid := fun same => unlisted r others here (same ▸ member)
      exact ⟨(still z).mpr made,(links.state this).trans zombie,spawned,other⟩
  · intro r r' others others' z given given' member member'
    rcases update_some given with ⟨rfl,rfl⟩ | ⟨different,here⟩ <;>
      rcases update_some given' with ⟨rfl,rfl⟩ | ⟨different',here'⟩
    · rfl
    · rcases List.mem_cons.mp member with same | old
      · exact absurd (same ▸ member') (unlisted r' others' here')
      · exact list.disjoint _ _ _ _ z at_ here' old member'
    · rcases List.mem_cons.mp member' with same | old
      · exact absurd (same ▸ member) (unlisted r others here)
      · exact list.disjoint _ _ _ _ z here at_ member old
    · exact list.disjoint _ _ _ _ z here here' member member'
  · intro p made zombie living
    by_cases here : p = pid
    · subst here
      exact ⟨p :: items,by simp [← parent],List.mem_cons_self⟩
    · obtain ⟨others,listed,member⟩ :=
        list.mine p ((still p).mp made) ((links.state here).symm.trans zombie) living
      by_cases same : s.slot (s.spawner (s.occupant p)) = q
      · rw [same,at_] at listed
        cases listed
        exact ⟨pid :: items,by simp [same],List.mem_cons_of_mem pid member⟩
      · exact ⟨others,by simpa [same] using listed,member⟩
  · intro p made quiet
    have before := (still p).mp made
    have outside : p ∉ items := by
      intro member
      obtain ⟨-,zombie,spawned,-⟩ := members p member
      have here : p ≠ pid := fun same => unlisted q items at_ (same ▸ member)
      rcases quiet with alive | startup
      · rw [links.state here,zombie] at alive; contradiction
      · exact spawned startup
    refine (links.prev chain outside).trans (list.lonely p before ?_)
    by_cases here : p = pid
    · subst here; exact .inl links.running
    · rwa [links.state here] at quiet
  · intro p made startup
    have here : p ≠ pid := by rintro rfl; exact process startup
    simpa [links.table,here] using list.single p ((still p).mp made) startup
  · intro r known
    by_cases same : r = q
    · subst same; exact list.inside r (by simp [at_])
    · exact list.inside r (by simpa [same] using known)

end Links

theorem Sound.link (sound : Sound s) (ready : Ready s pid) (running : (s.table pid).state = .running)
    (vacant : Vacant s pid) (unjoined : ¬WasJoined s (s.occupant pid))
    (result : ∃ v, s.passed (s.occupant pid) = some v ∧ (s.table pid).retval = max v 0)
    (process : s.spawner (s.occupant pid) ≠ 0) (parent : q = s.slot (s.spawner (s.occupant pid))) :
    Sound (linkZombie q pid s) := by
  obtain ⟨apart,third⟩ := sound.first_apart ready running process parent
  have links : Links s q pid (linkZombie q pid s).table := ⟨running,linkZombie_table apart third⟩
  obtain ⟨threads,waiters,entries,⟨lists,list⟩,log⟩ := sound
  have positive := (threads.occupied pid ready.1 ready.2.1).1
  obtain ⟨items,at_⟩ := Option.ne_none_iff_exists'.mp
    (parent ▸ list.parents _ positive (threads.occupants pid) process : lists q ≠ none)
  rw [linkZombie_rest]
  generalize (linkZombie q pid s).table = after at links
  refine ⟨threads.link links vacant,?_,entries.link links unjoined result,
    ⟨Function.update lists q (some (pid :: items)),list.link links ready apart process parent at_⟩,
    ⟨log.sound,log.once,log.past,log.startup⟩⟩
  exact ⟨fun who p joining => (waiters.joining who p joining).imp_left (links.still p).mpr,waiters.queue,waiters.once⟩

structure Keeps (s t : Processes) : Prop where
  alive : ∀ c, Alive t c ↔ Alive s c
  occupant : t.occupant = s.occupant
  slot : t.slot = s.slot
  spawner : t.spawner = s.spawner
  built : t.built = s.built

theorem Keeps.present (keeps : Keeps s t) (c : Nat) : Present t c ↔ Present s c := by
  unfold Present
  rw [keeps.alive]

theorem Keeps.vacant (keeps : Keeps s t) (vacant : Vacant s p) : Vacant t p := by
  intro c living
  rw [keeps.slot]
  exact vacant c ((keeps.alive c).mp living)

theorem sleepqWake_table (p : Int) (s : Processes) : (sleepqWake p s).table = s.table := by
  unfold sleepqWake
  split <;> rfl

theorem Sound.wake_keeps (sound : Sound s) (p : Int) : Keeps s (sleepqWake p s) := by
  unfold sleepqWake
  split
  · exact ⟨fun _ => Iff.rfl,rfl,rfl,rfl,rfl⟩
  next who rest queue =>
  have sleeping := sound.waiters.queue p who (by simp [queue])
  refine ⟨fun c => ?_,rfl,rfl,rfl,rfl⟩
  unfold Alive
  change _ ∧ _ ∧ (s.goto who (.entering p)).threads c ≠ .finished ↔ _
  rw [goto_threads]
  split
  · next same => subst same; simp [sleeping,Processes.goto]
  · rfl

theorem Threads.zombie_built (threads : Threads s) (inside : InTable q)
    (zombie : (s.table q).state = .zombie) : Ready s q := by
  obtain ⟨positive,slot⟩ := threads.occupied q inside (by simp [zombie])
  refine ⟨inside,by simp [zombie],threads.built _ positive fun absent => ?_⟩
  have running := (threads.alive _ ⟨positive,threads.occupants q,by simp [absent]⟩).2
  rw [slot,zombie] at running
  contradiction

theorem Threads.zombie_vacant (threads : Threads s) (zombie : (s.table q).state = .zombie) :
    Vacant s q := by
  intro c living slot
  have running := (threads.alive c living).2
  rw [slot,zombie] at running
  contradiction

/-- The recursive call: the parent was joined and its last child has gone. -/
theorem Sound.finish_parent (sound : Sound s) (inside : InTable q) (zombie : (s.table q).state = .zombie)
    (negative : (s.table q).retval < 0) (fuel : Nat) :
    ∃ t, finishGivenProcess (fuel + 1) q 0 s = some t ∧ Sound t ∧ Keeps s t ∧
      ∀ p, (s.table p).state = .running → (t.table p).state = .running := by
  have ready := sound.threads.zombie_built inside zombie
  have joined : WasJoined s (s.occupant q) := by
    by_contra unjoined
    obtain ⟨v,-,value⟩ := sound.entries.retval q ready zombie unjoined
    omega
  have parent : (s.table q).parent = -1 := (sound.entries.joined q ready joined).1
  have first := sound.setRetval q 0 fun _ _ => joined
  have same : ((s.modify q fun e => { e with retval := 0 }).table q).state = .zombie := by simp [zombie]
  obtain ⟨items,-,result,outside,members,second⟩ := first.reap
    (fun lists list => list.ready q (first.threads.zombie_built inside same)) (first.threads.zombie_vacant same)
  let t : Processes := { s.modify q (fun e => { e with retval := 0 }) with
    table := reaped q items (s.modify q fun e => { e with retval := 0 }).table }
  have again : t.modify q (fun e => { e with state := .zombie }) = t := by
    refine modify_self ?_
    simp [t,reaped,outside,zombie]
  refine ⟨sleepqWake q t,?_,second.wake q,?_,?_⟩
  · simp only [finishGivenProcess,parent,result,Option.bind_some,giveUp]
    rw [if_neg (by omega),if_neg (by omega)]
    exact congrArg (fun x => some (sleepqWake q x)) again
  · obtain ⟨alive,occupant,slot,spawner,built⟩ := second.wake_keeps q
    exact ⟨alive,occupant,slot,spawner,built⟩
  · intro p running
    rw [sleepqWake_table]
    have listed : p ∉ items := by
      intro member
      have other := members p member
      rw [modify_table] at other
      split at other <;> simp [running] at other
    have apart : p ≠ q := by rintro rfl; rw [running] at zombie; contradiction
    simpa [t,reaped,listed,apart] using running

def finishedState (who : Nat) (v : Int) (s : Processes) : Processes :=
  let s := { s.goto who .finished with passed := Function.update s.passed who (some v) }
  s.modify (s.slot who) fun e => { e with retval := max v 0 }

def leavingState (who : Nat) (v : Int) (items : List Int) (s : Processes) : Processes :=
  let s := { s.goto who .finished with passed := Function.update s.passed who (some v) }
  let s := s.modify (s.slot who) fun e => { e with retval := max v 0 }
  { s with table := reaped (s.slot who) items s.table }

theorem leavingState_table (who : Nat) (v : Int) (items : List Int) (s : Processes) (p : Int) :
    (leavingState who v items s).table p =
      if p ∈ items then { s.table p with state := .free, retval := -1, parent := -1 }
      else if p = s.slot who then { s.table p with
        retval := max v 0, firstZombie := -1, children := (s.table p).children - items.length }
      else s.table p := by
  change reaped (s.slot who) items (Function.update s.table (s.slot who) _) p = _
  unfold reaped
  by_cases here : p = s.slot who
  · subst here; simp; rfl
  · simp [here]

structure Leaving (who : Nat) (pid : Int) (s : Processes) : Prop where
  sound : Sound s
  ready : Ready s pid
  running : (s.table pid).state = .running
  vacant : Vacant s pid
  occupant : s.occupant pid = who
  unjoined : ¬WasJoined s (s.occupant pid)
  value : ∃ v, s.passed (s.occupant pid) = some v ∧ (s.table pid).retval = max v 0

theorem Leaving.parent (leaving : Leaving who pid s) :
    (s.table pid).parent = s.slot (s.spawner who) := by
  rw [leaving.sound.entries.parent pid leaving.ready leaving.unjoined,leaving.occupant]

theorem Sound.finish_stored (sound : Sound s) (idle : s.threads who = .idle) (process : 0 < who) (v : Int) :
    Sound (finishedState who v s) ∧ Ready (finishedState who v s) (s.slot who) := by
  have living : Alive s who := ⟨process,sound.threads.born_lt (by simp [idle]),by simp [idle]⟩
  obtain ⟨mine,running⟩ := sound.threads.alive who living
  have stored := (sound.finishing idle process v).setRetval (s.slot who) (max v 0) (by
    intro _ zombie
    change (s.table (s.slot who)).state = .zombie at zombie
    rw [running] at zombie
    contradiction)
  refine ⟨stored,sound.threads.slots who process living.2.1,?_,?_⟩
  · simp [finishedState,Processes.goto,running]
  · change s.built (s.occupant (s.slot who)) = true
    rw [mine]
    exact sound.threads.built who process (by simp [idle])

/-- The loop over the zombie children is over, the entry is still to be given up. -/
theorem Sound.finish_reap (sound : Sound s) (idle : s.threads who = .idle) (process : 0 < who) (v : Int) :
    ∃ items, s.slot who ∉ items ∧ Leaving who (s.slot who) (leavingState who v items s) ∧
      Chain (fun p => (s.table p).nextZombie) (-1) (s.table (s.slot who)).firstZombie items ∧
      reapZombies (scanned.length + 1) (s.slot who) (finishedState who v s) = some (leavingState who v items s) := by
  have start := sound.finishing idle process v
  have living : Alive s who := ⟨process,sound.threads.born_lt (by simp [idle]),by simp [idle]⟩
  obtain ⟨mine,running⟩ := sound.threads.alive who living
  have unjoined := sound.log.unfinished (c := who) (by simp [idle])
  obtain ⟨stored,ready⟩ := sound.finish_stored idle process v
  have vacant : Vacant (finishedState who v s) (s.slot who) := by
    intro c lives slot
    have here := (start.threads.alive c lives).1
    change s.occupant (s.slot c) = c at here
    change s.slot c = s.slot who at slot
    rw [slot,mine] at here
    subst here
    exact lives.2.2 ((goto_threads s who who _).trans (if_pos rfl))
  have links : ∀ p, ((finishedState who v s).table p).nextZombie = (s.table p).nextZombie ∧
      ((finishedState who v s).table p).firstZombie = (s.table p).firstZombie := by
    intro p
    by_cases here : p = s.slot who
    · subst here; simp [finishedState,Processes.goto]
    · simp [finishedState,Processes.goto,here]
  obtain ⟨items,chain,result,outside,members,third⟩ := stored.reap
    (fun lists list => list.ready (s.slot who) ready) vacant
  have state : ((leavingState who v items s).table (s.slot who)).state = .running := by
    rw [leavingState_table,if_neg outside,if_pos rfl]
    exact running
  refine ⟨items,outside,⟨third,⟨ready.1,by rw [state]; simp,ready.2.2⟩,state,vacant,mine,?_,?_⟩,?_,result⟩
  · change ¬WasJoined s (s.occupant (s.slot who))
    rwa [mine]
  · refine ⟨v,?_,?_⟩
    · change Function.update s.passed who (some v) (s.occupant (s.slot who)) = some v
      rw [mine,Function.update_self]
    · rw [leavingState_table,if_neg outside,if_pos rfl]
  · simpa only [links] using chain

theorem processFinish_reaped
    (reaped : reapZombies (scanned.length + 1) (s.slot who) (finishedState who v s) = some (leavingState who v items s)) :
    processFinish who v s = giveUp (fun parent s => finishGivenProcess scanned.length parent 0 s)
      (s.table (s.slot who)).parent (s.slot who) (leavingState who v items s) := by
  change Option.bind (reapZombies (scanned.length + 1) (s.slot who) (finishedState who v s)) _ = _
  rw [reaped]
  rfl

/-- Nobody who could still join the process is left when its parent is a zombie. -/
theorem Leaving.orphan (leaving : Leaving who pid s) (positive : 0 ≤ (s.table pid).parent)
    (zombie : (s.table (s.table pid).parent).state = .zombie) :
    ¬Present s (s.spawner (s.occupant pid)) := by
  have threads := leaving.sound.threads
  have parent := leaving.parent
  rw [leaving.occupant]
  rintro (startup | lives)
  · rw [parent,startup,threads.startup] at positive
    omega
  · exact threads.zombie_vacant zombie _ lives parent.symm

theorem Leaving.parent_inside (leaving : Leaving who pid s) (positive : 0 ≤ (s.table pid).parent) :
    s.spawner who ≠ 0 ∧ InTable (s.table pid).parent := by
  have threads := leaving.sound.threads
  have parent := leaving.parent
  have process : s.spawner who ≠ 0 := by
    intro startup
    rw [parent,startup,threads.startup] at positive
    omega
  obtain ⟨first,-⟩ := threads.occupied pid leaving.ready.1 leaving.ready.2.1
  have spawned := threads.spawners _ first (threads.occupants pid)
  rw [leaving.occupant] at spawned
  exact ⟨process,parent ▸ threads.slots _ (Nat.pos_of_ne_zero process) spawned.1⟩

theorem Leaving.giveUp (leaving : Leaving who pid s) (fuel : Nat) :
    ∃ t, giveUp (fun parent s => finishGivenProcess (fuel + 1) parent 0 s) (s.table pid).parent pid s =
      some t ∧ Sound t := by
  obtain ⟨sound,ready,running,vacant,occupant,unjoined,value⟩ := id leaving
  unfold Proc.giveUp
  split
  · next dead =>
    obtain ⟨positive,zombie⟩ := dead
    let q := (s.table pid).parent
    have apart : pid ≠ q := by
      intro same
      have : (s.table pid).state = .zombie := same ▸ zombie
      rw [running] at this
      contradiction
    have next := sound.children q fun n => n - 1
    let t := s.modify q fun e => { e with children := e.children - 1 }
    change Sound t at next
    have zombie' : (t.table q).state = .zombie := by simpa [t] using zombie
    have running' : (t.table pid).state = .running := by simpa [t,apart] using running
    obtain ⟨u,called,last,keeps,runs⟩ : ∃ u, (if (t.table q).children = 0 ∧ (t.table q).retval < 0 then
        finishGivenProcess (fuel + 1) q 0 t else some t) = some u ∧ Sound u ∧ Keeps t u ∧
        ∀ p, (t.table p).state = .running → (u.table p).state = .running := by
      split
      · next final =>
        exact next.finish_parent (leaving.parent_inside positive).2 zombie' final.2 fuel
      · exact ⟨t,rfl,next,⟨fun _ => Iff.rfl,rfl,rfl,rfl,rfl⟩,fun _ h => h⟩
    refine ⟨sleepqWake pid (u.modify pid fun e => { e with state := .free }),congrArg (Option.map _) called,?_⟩
    have state := runs pid running'
    refine (last.release ⟨ready.1,by rw [state]; simp,?_⟩ state ?_ ?_).wake pid
    · rw [keeps.built,keeps.occupant]; exact ready.2.2
    · exact keeps.vacant vacant
    · rw [keeps.spawner,keeps.occupant,keeps.present]; exact leaving.orphan positive zombie
  · split
    · next positive =>
      refine ⟨_,rfl,(sound.link ready running vacant unjoined value ?_ ?_).wake pid⟩
      · rw [occupant]; exact (leaving.parent_inside positive).1
      · rw [occupant]; exact leaving.parent
    · next negative =>
      refine ⟨_,rfl,(sound.zombie ready vacant value ?_).wake pid⟩
      rw [occupant]
      by_contra process
      obtain ⟨first,-⟩ := sound.threads.occupied pid ready.1 ready.2.1
      have spawned := sound.threads.spawners _ first (sound.threads.occupants pid)
      rw [occupant] at spawned
      have inside := (sound.threads.slots _ (Nat.pos_of_ne_zero process) spawned.1).1
      rw [← leaving.parent] at inside
      exact negative inside

theorem Sound.finish (sound : Sound s) (idle : s.threads who = .idle) (process : 0 < who) (v : Int) :
    ∃ t, processFinish who v s = some t ∧ Sound t := by
  obtain ⟨items,outside,leaving,-,reaped⟩ := sound.finish_reap idle process v
  have result := processFinish_reaped reaped
  have same : ((leavingState who v items s).table (s.slot who)).parent =
      (s.table (s.slot who)).parent := by
    rw [leavingState_table,if_neg outside,if_pos rfl]
  rw [result,← same]
  exact leaving.giveUp _

end Steps

end Buenos.Proc
