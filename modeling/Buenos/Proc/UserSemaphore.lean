import Buenos.Foundation.Run
import Buenos.Fs.VfsMountFs
import Buenos.Lib.Libc

/-! The semaphores of user processes, `proc/semaphore.c`: a table of names over the semaphores
of the kernel. A name that is destroyed stays in its row, and so does the row. -/
namespace Buenos.Proc.UserSemaphore

open Buenos.Foundation Buenos.Lib
open Buenos.Fs.MountFs (createSemaphore createSemaphore_spec createSemaphore_returns)

/-! ### The code -/

abbrev maxUserSemaphores : Nat := 64

def semaphoreNameLength : Nat := 20

/-- An index of `sem_table`; a handle points to its row. -/
abbrev Row := Fin maxUserSemaphores

/-- A name that `user_sem_open` is called with. -/
structure SemName where
  chars : List UInt8
  nonempty : chars ≠ []
  short : chars.length < semaphoreNameLength
  clean : 0 ∉ chars
  deriving DecidableEq

inductive SemState where
  | used
  | free
  deriving DecidableEq

/-- `user_sem_t`, with `none` for a `ksem` that is NULL. -/
structure UserSem where
  ksem : Option Kernel.Sem
  sid : Row
  state : SemState
  name : Bytes

/-- Not read by the code: `existing`, the name of the semaphore that exists in a row. -/
structure State where
  semTable : Row → UserSem
  kernel : Kernel.Semaphores
  existing : Row → Option SemName

def zeroed : Row → UserSem := fun _ => ⟨none, ⟨0, by decide⟩, .used, fun _ => 0⟩

def userSemaphoreInit (table : Row → UserSem) : Row → UserSem := fun i => { table i with state := .free }

def semNameExist (table : Row → UserSem) (name : SemName) : Bool :=
  (List.finRange maxUserSemaphores).any fun i => stringcmp (table i).name 0 name.chars == 0

def getUserSemName (table : Row → UserSem) (name : SemName) : Option Row :=
  ((List.finRange maxUserSemaphores).find? fun i => stringcmp (table i).name 0 name.chars == 0).map fun i => (table i).sid

/-- The stores of `get_sem`. -/
def State.fill (s : State) (sid : Row) (name : SemName) (ksem : Option Kernel.Sem) (kernel : Kernel.Semaphores) : State :=
  { s with
    semTable := Function.update s.semTable sid
      ⟨ksem, sid, .used, stringcopy (s.semTable sid).name 0 (semaphoreNameLength - 1) name.chars⟩
    kernel := kernel }

/-- The row, and the state afterwards; the outer `none` is a failing assertion. What
`semaphore_create` returns is stored without a look. -/
def getSem (cpu : Kernel.Cpu) (name : SemName) (value : Int) (s : State) : Option (Option Row × State) :=
  match (List.finRange maxUserSemaphores).find? fun i => (s.semTable i).state = .free with
  | none => some (none, s)
  | some sid => (createSemaphore cpu value s.kernel).map fun (ksem, kernel) => (some sid, s.fill sid name ksem kernel)

def userSemOpen (cpu : Kernel.Cpu) (name : SemName) (value : Int) (s : State) : Option (Option Row × State) :=
  if 0 ≤ value then
    if semNameExist s.semTable name then some (none, s) else getSem cpu name value s
  else some (getUserSemName s.semTable name, s)

/-- For a handle; `none` is a NULL pointer that is followed. -/
def userSemDestroy (handle : Row) (s : State) : Option State :=
  (s.semTable handle).ksem.map fun sem => { s with kernel := Kernel.semaphoreDestroy sem s.kernel }

/-! ### Calls -/

/-- `kernel` is whatever else happens to the kernel's semaphores between two calls. -/
inductive Call where
  | open_ (cpu : Kernel.Cpu) (name : SemName) (value : Int)
  | destroy (handle : Row)
  | kernel (kernel : Kernel.Semaphores)

/-- What a call of `user_sem_open` has brought into being. -/
def State.opened (name : SemName) (value : Int) (r : Option Row × State) : State :=
  match r.1 with
  | none => r.2
  | some handle =>
    if 0 ≤ value then { r.2 with existing := Function.update r.2.existing handle (some name) } else r.2

/-- Only handles that are open are destroyed. -/
def step : Call → State → Option State
  | .open_ cpu name value, s => (userSemOpen cpu name value s).map (State.opened name value)
  | .destroy handle, s =>
    if s.existing handle = none then none
    else (userSemDestroy handle s).map fun t => { t with existing := Function.update t.existing handle none }
  | .kernel kernel, s => some { s with kernel := kernel }

def start (kernel : Kernel.Semaphores) : State := ⟨userSemaphoreInit zeroed, kernel, fun _ => none⟩

/-! ### A partial map by name -/

def Exists (s : State) (name : SemName) : Prop := ∃ i, s.existing i = some name

def Full (s : State) : Prop := ∀ i, s.existing i ≠ none

def Available (s : State) : Prop := ∃ sem, (s.kernel.table sem).creator = -1

/-- A semaphore of the kernel with this value is in a row that was not in use, under this name,
and the other rows are the same. -/
structure Creates (name : SemName) (value : Int) (s : State) (handle : Row) (t : State) : Prop where
  unused : s.existing handle = none
  kernel : ∃ sem, (t.semTable handle).ksem = some sem ∧ (s.kernel.table sem).creator = -1 ∧
    (t.kernel.table sem).value = value
  named : getUserSemName t.semTable name = some handle
  others : ∀ i, i ≠ handle → t.semTable i = s.semTable i

/-- What a call is to do. -/
def Lawful : Call → State → Prop
  | .open_ cpu name value, s => ∃ r t, userSemOpen cpu name value s = some (r, t) ∧
    if 0 ≤ value then
      (r = none ↔ Exists s name ∨ Full s ∨ ¬Available s) ∧ ∀ handle, r = some handle → Creates name value s handle t
    else ∀ handle, r = some handle ↔ s.existing handle = some name
  | .destroy handle, s => ∀ t, step (.destroy handle) s = some t →
    ∀ name, s.existing handle = some name → semNameExist t.semTable name = false
  | .kernel _, _ => True

/-- Nothing is destroyed, and the kernel has a semaphore where one is needed. -/
def Proper : Call → State → Prop
  | .open_ _ name value, s => value < 0 ∨ Exists s name ∨ Full s ∨ Available s
  | .destroy handle, s => s.existing handle = none
  | .kernel _, _ => True

/-! ### The rows -/

/-- A row in use holds the name of its semaphore, and a free row no name. -/
structure Sound (s : State) : Prop where
  used : ∀ i name, s.existing i = some name →
    (s.semTable i).state = .used ∧ (s.semTable i).sid = i ∧ Holds (s.semTable i).name 0 name.chars ∧
      (s.semTable i).ksem ≠ none
  free : ∀ i, s.existing i = none → (s.semTable i).state = .free ∧ (s.semTable i).name 0 = 0
  distinct : ∀ i j name, s.existing i = some name → s.existing j = some name → i = j

theorem start_sound (kernel : Kernel.Semaphores) : Sound (start kernel) := by
  refine ⟨?_,fun _ _ => ⟨rfl,rfl⟩,?_⟩
  · intro i name existing
    contradiction
  · intro i j name existing
    contradiction

theorem Sound.compare (sound : Sound s) (i : Row) (name : SemName) :
    stringcmp (s.semTable i).name 0 name.chars = 0 ↔ s.existing i = some name := by
  cases existing : s.existing i with
  | none =>
    obtain ⟨_,empty⟩ := sound.free i existing
    have blank : cstring (s.semTable i).name 0 semaphoreNameLength = [] := by
      rw [semaphoreNameLength,cstring,if_pos empty]
    rw [stringcmp_eq_zero name.clean (n := semaphoreNameLength) (by rw [blank]; decide),blank]
    constructor
    · intro same
      exact absurd same.symm name.nonempty
    · intro none
      contradiction
  | some other =>
    obtain ⟨_,_,holds,_⟩ := sound.used i other existing
    have stored := holds.cstring other.clean other.short
    rw [stringcmp_eq_zero name.clean (by rw [stored]; exact other.short),stored]
    constructor
    · intro same
      cases other
      cases name
      cases same
      rfl
    · intro same
      cases same
      rfl

theorem Sound.semNameExist (sound : Sound s) (name : SemName) : semNameExist s.semTable name = true ↔ Exists s name := by
  rw [UserSemaphore.semNameExist,List.any_eq_true]
  constructor
  · rintro ⟨i,_,same⟩
    exact ⟨i,(sound.compare i name).mp (beq_iff_eq.mp same)⟩
  · rintro ⟨i,existing⟩
    exact ⟨i,List.mem_finRange i,beq_iff_eq.mpr ((sound.compare i name).mpr existing)⟩

theorem Sound.getUserSemName (sound : Sound s) (name : SemName) (handle : Row) :
    getUserSemName s.semTable name = some handle ↔ s.existing handle = some name := by
  rw [UserSemaphore.getUserSemName]
  cases found : (List.finRange maxUserSemaphores).find? fun i => stringcmp (s.semTable i).name 0 name.chars == 0 with
  | none =>
    have nowhere := List.find?_eq_none.mp found handle (List.mem_finRange handle)
    rw [beq_iff_eq,sound.compare] at nowhere
    simpa using nowhere
  | some i =>
    have here := List.find?_some found
    rw [beq_iff_eq,sound.compare] at here
    rw [Option.map_some,(sound.used i name here).2.1,Option.some.injEq]
    constructor
    · rintro rfl
      exact here
    · exact sound.distinct i handle name here

theorem Sound.state (sound : Sound s) (i : Row) : (s.semTable i).state = .free ↔ s.existing i = none := by
  cases existing : s.existing i with
  | none => simp [(sound.free i existing).1]
  | some name => simp [(sound.used i name existing).1]

/-! ### One call -/

theorem open_negative (negative : value < 0) (cpu : Kernel.Cpu) (name : SemName) (s : State) :
    userSemOpen cpu name value s = some (getUserSemName s.semTable name, s) :=
  if_neg (by omega)

theorem Sound.open_exists (sound : Sound s) (positive : 0 ≤ value) (cpu : Kernel.Cpu) (there : Exists s name) :
    userSemOpen cpu name value s = some (none, s) := by
  rw [userSemOpen,if_pos positive,if_pos ((sound.semNameExist name).mpr there)]

theorem Sound.open_full (sound : Sound s) (positive : 0 ≤ value) (cpu : Kernel.Cpu) (name : SemName) (full : Full s) :
    userSemOpen cpu name value s = some (none, s) := by
  have nowhere : (List.finRange maxUserSemaphores).find? (fun i => (s.semTable i).state = .free) = none := by
    apply List.find?_eq_none.mpr
    intro i _
    rw [decide_eq_true_eq,sound.state]
    exact full i
  rw [userSemOpen,if_pos positive,getSem,nowhere]
  exact ite_self _

/-- Otherwise a row is filled, whatever the kernel has said. -/
theorem Sound.open_new (sound : Sound s) (positive : 0 ≤ value) (cpu : Kernel.Cpu) (absent : ¬Exists s name)
    (room : ¬Full s) : ∃ sid ksem kernel, s.existing sid = none ∧ createSemaphore cpu value s.kernel = some (ksem, kernel) ∧
      userSemOpen cpu name value s = some (some sid, s.fill sid name ksem kernel) := by
  obtain ⟨ksem,kernel,created⟩ := createSemaphore_returns positive cpu s.kernel
  have missing : ¬UserSemaphore.semNameExist s.semTable name = true := fun there => absent ((sound.semNameExist name).mp there)
  cases found : (List.finRange maxUserSemaphores).find? fun i => (s.semTable i).state = .free with
  | none =>
    refine absurd (fun i free => ?_) room
    have nowhere := List.find?_eq_none.mp found i (List.mem_finRange i)
    rw [decide_eq_true_eq,sound.state] at nowhere
    exact nowhere free
  | some sid =>
    have here := List.find?_some found
    rw [decide_eq_true_eq,sound.state] at here
    refine ⟨sid,ksem,kernel,here,created,?_⟩
    rw [userSemOpen,if_pos positive,if_neg missing,getSem,found,created]
    rfl

theorem mem_semaphoreOrder (next sem : Kernel.Sem) : sem ∈ Kernel.semaphoreOrder next :=
  List.mem_map.mpr ⟨sem - next,List.mem_finRange _,by
    apply Fin.ext
    rw [Fin.val_add,Fin.val_sub]
    omega⟩

/-- The kernel gives a semaphore just when it has one. -/
theorem created_none (created : createSemaphore cpu value kernel = some (none, kernel')) (sem : Kernel.Sem) :
    (kernel.table sem).creator ≠ -1 := by
  obtain ⟨reserved,_,outcome⟩ := Option.map_eq_some_iff.mp created
  cases found : (Kernel.semaphoreOrder kernel.next).find? fun sem => (kernel.table sem).creator = -1 with
  | none =>
    have taken := List.find?_eq_none.mp found sem (mem_semaphoreOrder _ _)
    rwa [decide_eq_true_eq] at taken
  | some other =>
    rw [found] at outcome
    exact absurd (congrArg Prod.fst outcome) (Option.some_ne_none other)

theorem Sound.fill (sound : Sound s) (absent : ¬Exists s name) (table : t.semTable = Function.update s.semTable sid
      ⟨some sem,sid,.used,stringcopy (s.semTable sid).name 0 (semaphoreNameLength - 1) name.chars⟩)
    (existing : t.existing = Function.update s.existing sid (some name)) : Sound t := by
  have row : t.semTable sid =
      ⟨some sem,sid,.used,stringcopy (s.semTable sid).name 0 (semaphoreNameLength - 1) name.chars⟩ := by
    rw [table]
    exact Function.update_self _ _ _
  have other : ∀ i, i ≠ sid → t.semTable i = s.semTable i := by
    intro i apart
    rw [table]
    exact Function.update_of_ne apart _ _
  refine ⟨?_,?_,?_⟩
  · intro i owner there
    rw [existing] at there
    by_cases here : i = sid
    · subst here
      rw [Function.update_self] at there
      cases there
      rw [row]
      have fits : name.chars.length ≤ semaphoreNameLength - 1 := Nat.le_sub_one_of_lt name.short
      exact ⟨rfl,rfl,holds_stringcopy name.clean fits,Option.some_ne_none sem⟩
    · rw [Function.update_of_ne here] at there
      rw [other i here]
      exact sound.used i owner there
  · intro i free
    rw [existing] at free
    by_cases here : i = sid
    · rw [here,Function.update_self] at free
      contradiction
    · rw [Function.update_of_ne here] at free
      rw [other i here]
      exact sound.free i free
  · intro i j owner first second
    rw [existing] at first second
    by_cases here : i = sid
    · by_cases there : j = sid
      · rw [here,there]
      · rw [here,Function.update_self] at first
        rw [Function.update_of_ne there] at second
        cases first
        exact absurd ⟨j,second⟩ absent
    · rw [Function.update_of_ne here] at first
      by_cases there : j = sid
      · rw [there,Function.update_self] at second
        cases second
        exact absurd ⟨i,first⟩ absent
      · rw [Function.update_of_ne there] at second
        exact sound.distinct i j owner first second

theorem opened_some (positive : 0 ≤ value) (name : SemName) (handle : Row) (s : State) :
    State.opened name value (some handle,s) = { s with existing := Function.update s.existing handle (some name) } :=
  if_pos positive

/-! ### The law -/

theorem Sound.creates (sound : Sound s) (absent : ¬Exists s name) (unused : s.existing sid = none)
    (created : createSemaphore cpu value s.kernel = some (some sem, kernel)) :
    Creates name value s sid (s.fill sid name (some sem) kernel) := by
  have row : (s.fill sid name (some sem) kernel).semTable sid =
      ⟨some sem,sid,.used,stringcopy (s.semTable sid).name 0 (semaphoreNameLength - 1) name.chars⟩ :=
    Function.update_self _ _ _
  refine ⟨unused,⟨sem,by rw [row],?_⟩,?_,fun i apart => Function.update_of_ne apart _ _⟩
  · rcases createSemaphore_spec created with ⟨none,_⟩ | ⟨given,some_,made⟩
    · contradiction
    · cases some_
      exact ⟨made.free,made.value⟩
  · have filled : Sound ({ s.fill sid name (some sem) kernel with
        existing := Function.update s.existing sid (some name) } : State) := sound.fill absent rfl rfl
    exact (filled.getUserSemName name sid).mpr (Function.update_self _ _ _)

theorem Sound.lawful_open (sound : Sound s) (cpu : Kernel.Cpu) (name : SemName) (value : Int) :
    Lawful (.open_ cpu name value) s ↔ Proper (.open_ cpu name value) s := by
  rw [Lawful,Proper]
  by_cases positive : 0 ≤ value
  · by_cases there : Exists s name
    · have opened := sound.open_exists positive cpu there
      refine iff_of_true ⟨none,s,opened,?_⟩ (.inr (.inl there))
      rw [if_pos positive]
      exact ⟨iff_of_true rfl (.inl there),fun handle some_ => absurd some_.symm (Option.some_ne_none handle)⟩
    · by_cases full : Full s
      · have opened := sound.open_full positive cpu name full
        refine iff_of_true ⟨none,s,opened,?_⟩ (.inr (.inr (.inl full)))
        rw [if_pos positive]
        exact ⟨iff_of_true rfl (.inr (.inl full)),fun handle some_ => absurd some_.symm (Option.some_ne_none handle)⟩
      · obtain ⟨sid,ksem,kernel,unused,created,opened⟩ := sound.open_new positive cpu there full
        cases ksem with
        | none =>
          have empty : ¬Available s := fun ⟨sem,free⟩ => created_none created sem free
          apply iff_of_false
          · rintro ⟨r,t,opened',law⟩
            rw [opened,Option.some.injEq,Prod.mk.injEq] at opened'
            rw [if_pos positive] at law
            have refused := law.1.mpr (.inr (.inr empty))
            rw [← opened'.1] at refused
            contradiction
          · rintro (negative | there' | full' | available)
            · omega
            · exact there there'
            · exact full full'
            · exact empty available
        | some sem =>
          have creates := sound.creates there unused created
          obtain ⟨_,_,free,_⟩ := creates.kernel
          have available : Available s := ⟨_,free⟩
          refine iff_of_true ⟨some sid,_,opened,?_⟩ (.inr (.inr (.inr available)))
          rw [if_pos positive]
          constructor
          · apply iff_of_false (Option.some_ne_none sid)
            rintro (there' | full' | empty)
            · exact there there'
            · exact full full'
            · exact empty available
          · intro handle same
            cases same
            exact creates
  · have negative : value < 0 := by omega
    refine iff_of_true ⟨_,s,open_negative negative cpu name s,?_⟩ (.inl negative)
    rw [if_neg positive]
    exact sound.getUserSemName name

theorem Sound.lawful_destroy (sound : Sound s) (handle : Row) : Lawful (.destroy handle) s ↔ Proper (.destroy handle) s := by
  rw [Lawful,Proper]
  cases existing : s.existing handle with
  | none =>
    refine iff_of_true ?_ rfl
    intro t _ name some_
    contradiction
  | some name =>
    apply iff_of_false
    · intro law
      obtain ⟨sem,ksem⟩ := Option.ne_none_iff_exists'.mp (sound.used handle name existing).2.2.2
      have destroyed : userSemDestroy handle s = some { s with kernel := Kernel.semaphoreDestroy sem s.kernel } := by
        rw [userSemDestroy,ksem,Option.map_some]
      have removed := law _ (by rw [step,existing,if_neg (Option.some_ne_none name),destroyed,Option.map_some]) name rfl
      have still := (sound.semNameExist name).mpr ⟨handle,existing⟩
      dsimp only at removed
      rw [still] at removed
      contradiction
    · exact Option.some_ne_none name

theorem Sound.lawful_iff (sound : Sound s) (call : Call) : Lawful call s ↔ Proper call s := by
  cases call with
  | open_ cpu name value => exact sound.lawful_open cpu name value
  | destroy handle => exact sound.lawful_destroy handle
  | kernel kernel => exact Iff.rfl

theorem Sound.step (sound : Sound s) (proper : Proper call s) (next : step call s = some t) : Sound t := by
  cases call with
  | open_ cpu name value =>
    obtain ⟨⟨r,u⟩,opened,rfl⟩ := Option.map_eq_some_iff.mp next
    by_cases positive : 0 ≤ value
    · by_cases there : Exists s name
      · rw [sound.open_exists positive cpu there] at opened
        cases opened
        exact sound
      · by_cases full : Full s
        · rw [sound.open_full positive cpu name full] at opened
          cases opened
          exact sound
        · obtain ⟨sid,ksem,kernel,unused,created,opened'⟩ := sound.open_new positive cpu there full
          rw [opened'] at opened
          cases opened
          have available : Available s := by
            rcases proper with negative | there' | full' | available
            · omega
            · exact absurd there' there
            · exact absurd full' full
            · exact available
          obtain ⟨free,has⟩ := available
          cases ksem with
          | none => exact absurd has (created_none created free)
          | some sem =>
            rw [opened_some positive]
            exact sound.fill there rfl rfl
    · rw [open_negative (by omega) cpu name s] at opened
      cases opened
      rw [State.opened]
      dsimp only
      split
      · exact sound
      · rw [if_neg positive]
        exact sound
  | destroy handle =>
    have absent : s.existing handle = none := proper
    rw [UserSemaphore.step,if_pos absent] at next
    contradiction
  | kernel kernel =>
    cases next
    exact ⟨sound.used,sound.free,sound.distinct⟩

/-- Without a semaphore of the kernel a handle is returned all the same, and its `ksem` is NULL. -/
theorem Sound.open_null (sound : Sound s) (positive : 0 ≤ value) (cpu : Kernel.Cpu) (absent : ¬Exists s name) (room : ¬Full s)
    (empty : ¬Available s) :
    ∃ sid t, userSemOpen cpu name value s = some (some sid, t) ∧ (t.semTable sid).ksem = none := by
  obtain ⟨sid,ksem,kernel,_,created,opened⟩ := sound.open_new positive cpu absent room
  refine ⟨sid,_,opened,?_⟩
  rcases createSemaphore_spec created with ⟨none,_⟩ | ⟨sem,_,made⟩
  · rw [State.fill,none]
    dsimp only
    rw [Function.update_self]
  · exact absurd ⟨sem,made.free⟩ empty

/-- A name that was destroyed cannot be created again. -/
theorem Sound.open_destroyed (sound : Sound s) (positive : 0 ≤ value) (cpu : Kernel.Cpu)
    (existing : s.existing handle = some name)
    (next : UserSemaphore.step (.destroy handle) s = some t) : userSemOpen cpu name value t = some (none, t) := by
  rw [UserSemaphore.step,if_neg (by rw [existing]; exact Option.some_ne_none name)] at next
  obtain ⟨u,destroyed,rfl⟩ := Option.map_eq_some_iff.mp next
  obtain ⟨sem,_,rfl⟩ := Option.map_eq_some_iff.mp destroyed
  have still : UserSemaphore.semNameExist s.semTable name = true := (sound.semNameExist name).mpr ⟨handle,existing⟩
  rw [userSemOpen,if_pos positive,if_pos still]

/-- A semaphore that can be created can be destroyed, but not created again. -/
theorem Sound.recreate (sound : Sound s) (positive : 0 ≤ value) (cpu : Kernel.Cpu) (absent : ¬Exists s name) (room : ¬Full s)
    (available : Available s) : ∃ handle t u, UserSemaphore.step (.open_ cpu name value) s = some t ∧ Sound t ∧
      t.existing handle = some name ∧ UserSemaphore.step (.destroy handle) t = some u ∧ (∀ i, u.existing i ≠ some name) ∧
      userSemOpen cpu name value u = some (none, u) := by
  obtain ⟨handle,ksem,kernel,_,_,opened⟩ := sound.open_new positive cpu absent room
  have next : UserSemaphore.step (.open_ cpu name value) s = some (State.opened name value (some handle,s.fill handle name ksem kernel)) := by
    rw [UserSemaphore.step,opened,Option.map_some]
  have sound' := sound.step (show Proper (.open_ cpu name value) s from .inr (.inr (.inr available))) next
  generalize made : State.opened name value (some handle,s.fill handle name ksem kernel) = t at next sound'
  have existing : t.existing = Function.update s.existing handle (some name) := by
    rw [← made,opened_some positive]
    rfl
  have here : t.existing handle = some name := by
    rw [existing,Function.update_self]
  obtain ⟨sem,held⟩ := Option.ne_none_iff_exists'.mp (sound'.used handle name here).2.2.2
  have destroyed : ∃ u, UserSemaphore.step (.destroy handle) t = some u ∧ u.existing = Function.update t.existing handle none := by
    rw [UserSemaphore.step,if_neg (by rw [here]; exact Option.some_ne_none name),userSemDestroy,held]
    exact ⟨_,rfl,rfl⟩
  obtain ⟨u,destroyed,gone⟩ := destroyed
  refine ⟨handle,t,u,next,sound',here,destroyed,?_,sound'.open_destroyed positive cpu here destroyed⟩
  intro i there
  rw [gone] at there
  by_cases same : i = handle
  · rw [same,Function.update_self] at there
    contradiction
  · rw [Function.update_of_ne same] at there
    exact same (sound'.distinct i handle name there here)

/-- A run keeps to the law just when nothing is destroyed in it and the kernel never lacks a
semaphore. -/
theorem lawful_run_iff (kernel : Kernel.Semaphores) (calls : List Call) :
    Meets step Lawful calls (start kernel) ↔ Meets step Proper calls (start kernel) :=
  meets_iff (fun call _ sound => Sound.lawful_iff sound call)
    (fun call _ _ sound lawful next => sound.step ((sound.lawful_iff call).mp lawful) next) (start_sound kernel)

/-- The name of the first semaphore of `tests/prog0n.c`. -/
def wait0 : SemName := ⟨['w'.toUInt8,'a'.toUInt8,'i'.toUInt8,'t'.toUInt8,'0'.toUInt8],by decide,by decide,by decide⟩

/-- Created, destroyed, and refused when it is to be created again. -/
theorem recreate_refused : ∃ handle s t, step (.open_ 0 wait0 1) (start Kernel.initialSemaphores) = some s ∧
    s.existing handle = some wait0 ∧ step (.destroy handle) s = some t ∧ (∀ i, t.existing i ≠ some wait0) ∧
    userSemOpen 0 wait0 1 t = some (none, t) ∧
    ¬Meets step Lawful [.open_ 0 wait0 1,.destroy handle] (start Kernel.initialSemaphores) := by
  have nothing : ∀ i, (start Kernel.initialSemaphores).existing i = none := fun _ => rfl
  have absent : ¬Exists (start Kernel.initialSemaphores) wait0 := by
    rintro ⟨i,there⟩
    rw [nothing i] at there
    contradiction
  have room : ¬Full (start Kernel.initialSemaphores) := fun full => full 0 (nothing 0)
  obtain ⟨handle,s,t,opened,sound,existing,destroyed,gone,refused⟩ :=
    (start_sound Kernel.initialSemaphores).recreate (show (0 : Int) ≤ 1 by decide) 0 absent room ⟨0,rfl⟩
  refine ⟨handle,s,t,opened,existing,destroyed,gone,refused,fun meets => ?_⟩
  have proper := (sound.lawful_destroy handle).mp (meets.next opened).1
  rw [Proper,existing] at proper
  contradiction

end Buenos.Proc.UserSemaphore
