import Buenos.Foundation.Refinement
import Mathlib.Logic.Function.Basic
import Mathlib.Data.List.Nodup

/-! The spinlocks of `kernel/_spinlock.S`, one instruction at a time, on any number of CPUs. -/
namespace Buenos.Kernel.Spinlock

open Buenos.Foundation

/-- The next instruction of a CPU: of `spinlock_acquire` from `ll` to `jr`, of `spinlock_release`
from `sw` to `jrReleased`; `outside` is the code of the callers. -/
inductive Pc where
  | outside
  | ll
  | bnez
  | li
  | sc
  | beqz
  | jr
  | sw
  | jrReleased
  deriving DecidableEq

/-- The registers that the code uses and the address that the link bit is about. `holds` are the
locks the CPU's code has acquired and not yet begun to release; no instruction reads it. -/
structure Cpu where
  pc : Pc
  a0 : Nat
  t0 : Nat
  link : Option Nat
  holds : List Nat

structure Machine where
  memory : Nat → Nat
  cpus : Nat → Cpu

/-- A store by another CPU clears the link bit that is about its address. -/
def Cpu.unlink (cpu : Cpu) (address : Nat) : Cpu :=
  { cpu with link := if cpu.link = some address then none else cpu.link }

def Machine.set (m : Machine) (c : Nat) (cpu : Cpu) : Machine := { m with cpus := Function.update m.cpus c cpu }

/-- CPU `c` goes on as `cpu` and stores `value`. -/
def Machine.store (m : Machine) (c : Nat) (cpu : Cpu) (address value : Nat) : Machine :=
  ⟨Function.update m.memory address value,
    Function.update (fun d => (m.cpus d).unlink address) c cpu⟩

/-- One instruction of CPU `c`. -/
def instruction (m : Machine) (c : Nat) (cpu : Cpu) : Option Machine :=
  match cpu.pc with
  | .outside => none
  | .ll => some (m.set c { cpu with pc := .bnez, t0 := m.memory cpu.a0, link := some cpu.a0 })
  | .bnez => some (m.set c { cpu with pc := if cpu.t0 ≠ 0 then .ll else .li })
  | .li => some (m.set c { cpu with pc := .sc, t0 := 1 })
  | .sc =>
    if cpu.link = some cpu.a0 then
      some (m.store c { cpu with pc := .beqz, t0 := 1, link := none } cpu.a0 cpu.t0)
    else some (m.set c { cpu with pc := .beqz, t0 := 0, link := none })
  | .beqz => some (m.set c { cpu with pc := if cpu.t0 = 0 then .ll else .jr })
  | .jr => some (m.set c { cpu with pc := .outside, holds := cpu.a0 :: cpu.holds })
  | .sw => some (m.store c { cpu with pc := .jrReleased } cpu.a0 0)
  | .jrReleased => some (m.set c { cpu with pc := .outside })

/-- Calls, single instructions, and the loss of a link bit for a reason of the hardware's own,
such as an exception. -/
inductive Action where
  | acquire (c slock : Nat)
  | release (c slock : Nat)
  | step (c : Nat)
  | lose (c : Nat)
  deriving DecidableEq

def step (a : Action) (m : Machine) : Option Machine :=
  match a with
  | .acquire c slock =>
    if (m.cpus c).pc = .outside then some (m.set c { m.cpus c with pc := .ll, a0 := slock }) else none
  | .release c slock =>
    if (m.cpus c).pc = .outside then
      some (m.set c { m.cpus c with pc := .sw, a0 := slock, holds := (m.cpus c).holds.erase slock })
    else none
  | .step c => instruction m c (m.cpus c)
  | .lose c => some (m.set c { m.cpus c with link := none })

/-- A lock is released by the CPU that holds it. -/
def Permitted (a : Action) (m : Machine) : Prop :=
  match a with
  | .release c slock => slock ∈ (m.cpus c).holds
  | _ => True

instance (a : Action) (m : Machine) : Decidable (Permitted a m) :=
  match a with
  | .release c slock => inferInstanceAs (Decidable (slock ∈ (m.cpus c).holds))
  | .acquire _ _ => isTrue trivial
  | .step _ => isTrue trivial
  | .lose _ => isTrue trivial

/-- After `spinlock_reset` of all locks, before any call. -/
def start : Machine := ⟨fun _ => 0,fun _ => ⟨.outside,0,0,none,[]⟩⟩

/-! ### The abstract lock -/

inductive Event where
  | acquire (c slock : Nat)
  | release (c slock : Nat)
  deriving DecidableEq

/-- A free lock is taken at once and given back by its owner. -/
def lockStep (e : Event) (owner : Nat → Option Nat) : Option (Nat → Option Nat) :=
  match e with
  | .acquire c slock => if owner slock = none then some (Function.update owner slock (some c)) else none
  | .release c slock => if owner slock = some c then some (Function.update owner slock none) else none

/-- The stores are the events: the `sc` that succeeds and the `sw`. -/
def event (a : Action) (m : Machine) : List Event :=
  match a with
  | .step c =>
    if (m.cpus c).pc = .sc ∧ (m.cpus c).link = some (m.cpus c).a0 then [.acquire c (m.cpus c).a0]
    else if (m.cpus c).pc = .sw then [.release c (m.cpus c).a0]
    else []
  | _ => []

/-! ### The invariant -/

/-- The CPU owns the lock of the call it is in. -/
def Cpu.Owns (cpu : Cpu) : Prop := cpu.pc = .jr ∨ cpu.pc = .sw ∨ (cpu.pc = .beqz ∧ cpu.t0 ≠ 0)

structure Safe (owner : Nat → Option Nat) (memory : Nat → Nat) (c : Nat) (cpu : Cpu) : Prop where
  nodup : cpu.holds.Nodup
  held : ∀ slock ∈ cpu.holds, owner slock = some c
  word : cpu.pc = .bnez → cpu.link = some cpu.a0 → memory cpu.a0 = cpu.t0
  free : cpu.pc = .li ∨ cpu.pc = .sc → cpu.link = some cpu.a0 → memory cpu.a0 = 0
  one : cpu.pc = .sc → cpu.t0 = 1
  owns : cpu.Owns → owner cpu.a0 = some c ∧ cpu.a0 ∉ cpu.holds

/-- The word of a lock is 1 while it has an owner. -/
structure Simulates (m : Machine) (owner : Nat → Option Nat) : Prop where
  words : ∀ slock, m.memory slock = if owner slock = none then 0 else 1
  safe : ∀ c, Safe owner m.memory c (m.cpus c)

@[simp] theorem set_memory (m : Machine) (c : Nat) (cpu : Cpu) : (m.set c cpu).memory = m.memory := rfl
@[simp] theorem set_self (m : Machine) (c : Nat) (cpu : Cpu) : (m.set c cpu).cpus c = cpu := by simp [Machine.set]
theorem set_other (m : Machine) (cpu : Cpu) (other : d ≠ c) : (m.set c cpu).cpus d = m.cpus d := by
  simp [Machine.set,Function.update_of_ne other]

theorem Simulates.set (simulates : Simulates m owner) (safe : Safe owner m.memory c cpu) :
    Simulates (m.set c cpu) owner := by
  refine ⟨simulates.words,fun d => ?_⟩
  by_cases same : d = c
  · subst same
    rwa [set_self,set_memory]
  · rw [set_other m cpu same]
    exact simulates.safe d

/-- A CPU that does not own the lock has nothing to fear from a store to it. -/
theorem Safe.elsewhere (safe : Safe owner memory d cpu) (foreign : owner slock ≠ some d) :
    Safe (Function.update owner slock taker) (Function.update memory slock value) d (cpu.unlink slock) := by
  have apart : ∀ {other}, owner other = some d → other ≠ slock := by
    rintro other mine rfl
    exact foreign mine
  have linked : (cpu.unlink slock).link = some cpu.a0 → cpu.link = some cpu.a0 ∧ cpu.a0 ≠ slock := by
    unfold Cpu.unlink
    dsimp only
    split
    · intro impossible
      contradiction
    · next distinct =>
      intro link
      refine ⟨link,fun same => distinct ?_⟩
      rw [link,same]
  refine ⟨safe.nodup,?_,?_,?_,safe.one,?_⟩
  · intro other member
    have mine := safe.held other member
    rw [Function.update_of_ne (apart mine)]
    exact mine
  · intro place link
    obtain ⟨link,other⟩ := linked link
    exact (Function.update_of_ne other _ _).trans (safe.word place link)
  · intro place link
    obtain ⟨link,other⟩ := linked link
    exact (Function.update_of_ne other _ _).trans (safe.free place link)
  · intro owning
    obtain ⟨mine,absent⟩ := safe.owns owning
    refine ⟨?_,absent⟩
    exact (Function.update_of_ne (apart mine) _ _).trans mine

theorem Simulates.store (simulates : Simulates m owner) (foreign : ∀ d, d ≠ c → owner slock ≠ some d)
    (word : value = if taker = none then 0 else 1)
    (safe : Safe (Function.update owner slock taker) (Function.update m.memory slock value) c cpu) :
    Simulates (m.store c cpu slock value) (Function.update owner slock taker) := by
  refine ⟨fun other => ?_,fun d => ?_⟩
  · unfold Machine.store
    by_cases same : other = slock
    · subst same
      simpa using word
    · simpa [Function.update_of_ne same] using simulates.words other
  · unfold Machine.store
    by_cases same : d = c
    · subst same
      simpa using safe
    · dsimp only
      rw [Function.update_of_ne same]
      exact (simulates.safe d).elsewhere (foreign d same)

/-- A place from which nothing follows about the word. -/
theorem Safe.goto (safe : Safe owner memory c cpu) (t0 : Nat) (link : Option Nat)
    (place : pc = .outside ∨ pc = .ll ∨ pc = .jrReleased ∨ (pc = .beqz ∧ t0 = 0)) :
    Safe owner memory c { cpu with pc := pc, t0 := t0, link := link } := by
  refine ⟨safe.nodup,safe.held,?_,?_,?_,?_⟩
  · rintro rfl
    simp at place
  · rintro (rfl | rfl)
    · simp at place
    · simp at place
  · rintro rfl
    simp at place
  · rintro (rfl | rfl | ⟨rfl,nonzero⟩)
    · simp at place
    · simp at place
    · exact absurd (by simpa using place) nonzero

/-! ### The instructions -/

section Instructions
variable {cpu : Cpu} (safe : Safe owner memory c cpu)
include safe

theorem Safe.ll : Safe owner memory c { cpu with pc := .bnez, t0 := memory cpu.a0, link := some cpu.a0 } :=
  ⟨safe.nodup,safe.held,fun _ _ => rfl,by simp,nofun,by simp [Cpu.Owns]⟩

theorem Safe.bnez (place : cpu.pc = .bnez) : Safe owner memory c { cpu with pc := if cpu.t0 ≠ 0 then .ll else .li } := by
  by_cases taken : cpu.t0 = 0
  · rw [if_neg (not_not.mpr taken)]
    refine ⟨safe.nodup,safe.held,nofun,fun _ linked => ?_,nofun,by simp [Cpu.Owns]⟩
    exact (safe.word place linked).trans taken
  · rw [if_pos taken]
    exact safe.goto cpu.t0 cpu.link (.inr (.inl rfl))

theorem Safe.li (place : cpu.pc = .li) : Safe owner memory c { cpu with pc := .sc, t0 := 1 } :=
  ⟨safe.nodup,safe.held,nofun,fun _ linked => safe.free (.inl place) linked,fun _ => rfl,by simp [Cpu.Owns]⟩

theorem Safe.beqz (place : cpu.pc = .beqz) : Safe owner memory c { cpu with pc := if cpu.t0 = 0 then .ll else .jr } := by
  by_cases failed : cpu.t0 = 0
  · rw [if_pos failed]
    exact safe.goto cpu.t0 cpu.link (.inr (.inl rfl))
  · rw [if_neg failed]
    exact ⟨safe.nodup,safe.held,nofun,by simp,nofun,fun _ => safe.owns (.inr (.inr ⟨place,failed⟩))⟩

theorem Safe.jr (place : cpu.pc = .jr) : Safe owner memory c { cpu with pc := .outside, holds := cpu.a0 :: cpu.holds } := by
  obtain ⟨mine,absent⟩ := safe.owns (.inl place)
  refine ⟨List.nodup_cons.mpr ⟨absent,safe.nodup⟩,fun other member => ?_,nofun,by simp,nofun,by simp [Cpu.Owns]⟩
  obtain rfl | member := List.mem_cons.mp member
  · exact mine
  · exact safe.held other member

end Instructions

/-- The `sc` that succeeds takes a free lock. -/
theorem Simulates.sc (simulates : Simulates m owner) (cpu : m.cpus c = ⟨.sc,a0,t0,some a0,holds⟩) : owner a0 = none ∧
    Simulates (m.store c ⟨.beqz,a0,1,none,holds⟩ a0 t0) (Function.update owner a0 (some c)) := by
  have safe := simulates.safe c
  rw [cpu] at safe
  have one : t0 = 1 := safe.one rfl
  have vacant : owner a0 = none := by
    by_contra taken
    have word := simulates.words a0
    rw [if_neg taken,safe.free (.inr rfl) rfl] at word
    contradiction
  refine ⟨vacant,simulates.store ?_ (by simp [one]) ?_⟩
  · intro d _ taken
    rw [vacant] at taken
    contradiction
  · have absent : a0 ∉ holds := by
      intro member
      have taken := safe.held a0 member
      rw [vacant] at taken
      contradiction
    refine ⟨safe.nodup,fun other member => ?_,nofun,by simp,nofun,fun _ => ⟨by simp,absent⟩⟩
    have apart : other ≠ a0 := by
      rintro rfl
      exact absent member
    rw [Function.update_of_ne apart]
    exact safe.held other member

/-- The `sw` gives back a lock that the CPU owns. -/
theorem Simulates.sw (simulates : Simulates m owner) (cpu : m.cpus c = ⟨.sw,a0,t0,link,holds⟩) : owner a0 = some c ∧
    Simulates (m.store c ⟨.jrReleased,a0,t0,link,holds⟩ a0 0) (Function.update owner a0 none) := by
  have safe := simulates.safe c
  rw [cpu] at safe
  obtain ⟨mine,absent⟩ := safe.owns (.inr (.inl rfl))
  refine ⟨mine,simulates.store ?_ (by simp) ?_⟩
  · intro d other taken
    exact other (Option.some.inj (taken.symm.trans mine))
  · refine ⟨safe.nodup,fun other member => ?_,nofun,by simp,nofun,by simp [Cpu.Owns]⟩
    have apart : other ≠ a0 := by
      rintro rfl
      exact absent member
    rw [Function.update_of_ne apart]
    exact safe.held other member

theorem Simulates.instruction (simulates : Simulates m owner) (next : Spinlock.instruction m c (m.cpus c) = some m') :
    ∃ owner', run lockStep (event (.step c) m) owner = some owner' ∧ Simulates m' owner' := by
  have safe := simulates.safe c
  simp only [event]
  generalize here : m.cpus c = cpu at safe next ⊢
  obtain ⟨pc,a0,t0,link,holds⟩ := cpu
  cases pc with
  | outside => contradiction
  | ll => cases next; exact ⟨owner,rfl,simulates.set safe.ll⟩
  | bnez => cases next; exact ⟨owner,rfl,simulates.set (safe.bnez rfl)⟩
  | li => cases next; exact ⟨owner,rfl,simulates.set (safe.li rfl)⟩
  | sc =>
    simp only [Spinlock.instruction] at next
    by_cases linked : link = some a0
    · rw [if_pos linked] at next
      cases next
      subst linked
      obtain ⟨vacant,taken⟩ := simulates.sc here
      exact ⟨_,by simp [lockStep,vacant],taken⟩
    · rw [if_neg linked] at next
      cases next
      refine ⟨owner,by simp [linked],simulates.set ?_⟩
      exact safe.goto 0 none (.inr (.inr (.inr ⟨rfl,rfl⟩)))
  | beqz => cases next; exact ⟨owner,rfl,simulates.set (safe.beqz rfl)⟩
  | jr => cases next; exact ⟨owner,rfl,simulates.set (safe.jr rfl)⟩
  | sw =>
    cases next
    obtain ⟨mine,given⟩ := simulates.sw here
    exact ⟨_,by simp [lockStep,mine],given⟩
  | jrReleased => cases next; exact ⟨owner,rfl,simulates.set (safe.goto t0 link (.inl rfl))⟩

theorem Simulates.acquire (simulates : Simulates m owner) (c slock : Nat) :
    Simulates (m.set c { m.cpus c with pc := .ll, a0 := slock }) owner := by
  obtain ⟨nodup,held,_,_,_,_⟩ := simulates.safe c
  exact simulates.set ⟨nodup,held,nofun,by simp,nofun,by simp [Cpu.Owns]⟩

theorem Simulates.release (simulates : Simulates m owner) (mine : slock ∈ (m.cpus c).holds) :
    Simulates (m.set c { m.cpus c with pc := .sw, a0 := slock, holds := (m.cpus c).holds.erase slock }) owner := by
  obtain ⟨nodup,held,_,_,_,_⟩ := simulates.safe c
  refine simulates.set ⟨nodup.erase slock,?_,nofun,by simp,nofun,fun _ => ?_⟩
  · exact fun other member => held other (List.mem_of_mem_erase member)
  · exact ⟨held slock mine,List.Nodup.not_mem_erase nodup⟩

theorem Simulates.lose (simulates : Simulates m owner) (c : Nat) :
    Simulates (m.set c { m.cpus c with link := none }) owner := by
  obtain ⟨nodup,held,_,_,one,owns⟩ := simulates.safe c
  exact simulates.set ⟨nodup,held,fun _ => nofun,fun _ => nofun,one,owns⟩

/-- One action is matched by its events. -/
theorem Simulates.step (simulates : Simulates m owner) (permitted : Permitted a m) (next : Spinlock.step a m = some m') :
    ∃ owner', run lockStep (event a m) owner = some owner' ∧ Simulates m' owner' := by
  cases a with
  | acquire c slock =>
    simp only [Spinlock.step] at next
    split at next
    · cases next
      exact ⟨owner,rfl,simulates.acquire c slock⟩
    · contradiction
  | release c slock =>
    simp only [Spinlock.step] at next
    split at next
    · cases next
      exact ⟨owner,rfl,simulates.release permitted⟩
    · contradiction
  | lose c =>
    cases next
    exact ⟨owner,rfl,simulates.lose c⟩
  | step c => exact simulates.instruction next

theorem start_simulates : Simulates start fun _ => none :=
  ⟨fun _ => rfl,fun _ => ⟨List.nodup_nil,nofun,nofun,by simp [start],nofun,by simp [start,Cpu.Owns]⟩⟩

/-- Under every interleaving of the instructions of any number of CPUs the stores are those of an
atomic lock, the word of each lock says whether it is owned, and what a CPU holds it owns: no
two CPUs hold one lock, and none holds it twice. -/
theorem spinlock_refines (meets : Meets step Permitted actions start) (ran : run step actions start = some m) :
    ∃ owner, run lockStep (traceOf step event actions start) (fun _ => none) = some owner ∧
      (∀ slock, m.memory slock = if owner slock = none then 0 else 1) ∧
      (∀ c, (m.cpus c).holds.Nodup ∧ ∀ slock ∈ (m.cpus c).holds, owner slock = some c) ∧
      ∀ c d slock, slock ∈ (m.cpus c).holds → slock ∈ (m.cpus d).holds → c = d := by
  obtain ⟨owner,traced,simulates⟩ := run_refines
    (fun a m m' owner simulates permitted next => Simulates.step simulates permitted next) start_simulates meets ran
  refine ⟨owner,traced,simulates.words,fun c => ⟨(simulates.safe c).nodup,(simulates.safe c).held⟩,?_⟩
  intro c d slock mine theirs
  have one := (simulates.safe c).held slock mine
  rw [(simulates.safe d).held slock theirs] at one
  exact (Option.some.inj one).symm

/-- Two CPUs load the free lock; the `sc` of the second fails. The first gives the lock back. -/
def contention : List Action :=
  [.acquire 0 4,.acquire 1 4,.step 0,.step 1,.step 0,.step 1,.step 0,.step 1,.step 0,.step 1,.step 0,.step 0,
    .release 0 4,.step 0,.step 1,.step 1]

theorem spinlock_refines_contention : ∃ m owner, run step contention start = some m ∧
    run lockStep (traceOf step event contention start) (fun _ => none) = some owner ∧
    ∀ slock, m.memory slock = if owner slock = none then 0 else 1 := by
  obtain ⟨owner,traced,words,_⟩ := spinlock_refines (show Meets step Permitted contention start by decide) rfl
  exact ⟨_,owner,rfl,traced,words⟩

/-! ### Progress -/

/-- The CPU is in the loop of `spinlock_acquire` for this lock. -/
def Cpu.Waits (cpu : Cpu) (slock : Nat) : Prop :=
  cpu.a0 = slock ∧ (cpu.pc = .ll ∨ cpu.pc = .bnez ∨ cpu.pc = .li ∨ cpu.pc = .sc ∨ cpu.pc = .beqz)

/-- How many instructions come before the `sc` that succeeds, as long as the lock stays free. -/
def Cpu.rank (cpu : Cpu) : Nat :=
  match cpu.pc with
  | .ll => 3
  | .bnez => if cpu.t0 ≠ 0 then 4 else if cpu.link = some cpu.a0 then 2 else 7
  | .li => if cpu.link = some cpu.a0 then 1 else 6
  | .sc => if cpu.link = some cpu.a0 then 0 else 5
  | .beqz => 4
  | _ => 0

theorem rank_le (cpu : Cpu) : cpu.rank ≤ 7 := by
  unfold Cpu.rank
  split
  all_goals try split
  all_goals try split
  all_goals decide

def Action.cpu : Action → Nat
  | .acquire c _ => c
  | .release c _ => c
  | .step c => c
  | .lose c => c

theorem step_other (next : step a m = some m') (other : a.cpu ≠ c) :
    m'.cpus c = m.cpus c ∨ ∃ slock, m'.cpus c = (m.cpus c).unlink slock ∧
      (event a m = [.acquire a.cpu slock] ∨ event a m = [.release a.cpu slock]) := by
  have kept : ∀ cpu, (m.set a.cpu cpu).cpus c = m.cpus c := fun cpu => set_other m cpu (Ne.symm other)
  have stored : ∀ cpu slock value, (m.store a.cpu cpu slock value).cpus c = (m.cpus c).unlink slock :=
    fun cpu slock value => by simp [Machine.store,Function.update_of_ne (Ne.symm other)]
  cases a with
  | acquire d slock =>
    simp only [step] at next
    split at next
    · cases next
      exact .inl (kept _)
    · contradiction
  | release d slock =>
    simp only [step] at next
    split at next
    · cases next
      exact .inl (kept _)
    · contradiction
  | lose d =>
    cases next
    exact .inl (kept _)
  | step d =>
    simp only [step,instruction] at next
    split at next
    · contradiction
    · cases next; exact .inl (kept _)
    · cases next; exact .inl (kept _)
    · cases next; exact .inl (kept _)
    · next place =>
      split at next
      · next linked =>
        cases next
        exact .inr ⟨_,stored _ _ _,.inl (if_pos ⟨place,linked⟩)⟩
      · cases next; exact .inl (kept _)
    · cases next; exact .inl (kept _)
    · cases next; exact .inl (kept _)
    · next place =>
      cases next
      refine .inr ⟨_,stored _ _ _,.inr ?_⟩
      simp [event,place,Action.cpu]
    · cases next; exact .inl (kept _)

/-- A lock that is not taken stays free. -/
theorem lock_stays_free (ran : run lockStep events owner = some owner') (free : owner slock = none)
    (untaken : ∀ e ∈ events, ¬∃ d, e = .acquire d slock) : owner' slock = none := by
  induction events generalizing owner with
  | nil =>
    cases ran
    exact free
  | cons e rest ih =>
    obtain ⟨between,next,later⟩ := Option.bind_eq_some_iff.mp ran
    refine ih later ?_ fun f member => untaken f (List.mem_cons_of_mem e member)
    cases e with
    | acquire d other =>
      have apart : slock ≠ other := by
        rintro rfl
        exact untaken _ List.mem_cons_self ⟨d,rfl⟩
      simp only [lockStep] at next
      split at next
      · cases next
        exact (Function.update_of_ne apart _ _).trans free
      · contradiction
    | release d other =>
      simp only [lockStep] at next
      split at next
      · cases next
        by_cases same : slock = other
        · subst same
          simp
        · exact (Function.update_of_ne same _ _).trans free
      · contradiction

/-- The lock is free and CPU `c` waits for it. -/
def Contended (slock c : Nat) (m : Machine) : Prop :=
  (∃ owner, Simulates m owner ∧ owner slock = none) ∧ (m.cpus c).Waits slock

/-- An instruction of the waiting CPU that does not get the lock brings it one step nearer. -/
theorem step_nearer (simulates : Simulates m owner) (free : owner slock = none) (waits : (m.cpus c).Waits slock)
    (next : step (.step c) m = some m') (untaken : ∀ e ∈ event (.step c) m, ¬∃ d, e = .acquire d slock) :
    (m'.cpus c).Waits slock ∧ (m'.cpus c).rank + 1 ≤ (m.cpus c).rank := by
  have safe := simulates.safe c
  have word : m.memory slock = 0 := by rw [simulates.words,if_pos free]
  simp only [step] at next
  simp only [event] at untaken
  generalize m.cpus c = cpu at safe waits next untaken ⊢
  obtain ⟨pc,a0,t0,link,holds⟩ := cpu
  obtain ⟨same,place⟩ := waits
  dsimp only at same place
  subst same
  cases pc with
  | outside => simp at place
  | jr => simp at place
  | sw => simp at place
  | jrReleased => simp at place
  | ll =>
    cases next
    simp [Cpu.Waits,Cpu.rank,word]
  | bnez =>
    cases next
    by_cases taken : t0 = 0
    · by_cases linked : link = some a0
      · simp [Cpu.Waits,Cpu.rank,taken,linked]
      · simp [Cpu.Waits,Cpu.rank,taken,linked]
    · simp [Cpu.Waits,Cpu.rank,taken]
  | li =>
    cases next
    by_cases linked : link = some a0
    · simp [Cpu.Waits,Cpu.rank,linked]
    · simp [Cpu.Waits,Cpu.rank,linked]
  | sc =>
    by_cases linked : link = some a0
    · exact absurd ⟨c,rfl⟩ (untaken (.acquire c a0) (by simp [linked]))
    · simp only [instruction,if_neg linked] at next
      cases next
      simp [Cpu.Waits,Cpu.rank,linked]
  | beqz =>
    cases next
    by_cases failed : t0 = 0
    · simp [Cpu.Waits,Cpu.rank,failed]
    · have mine := (safe.owns (.inr (.inr ⟨rfl,failed⟩))).1
      rw [free] at mine
      contradiction

/-- As long as nobody takes the lock the CPU goes on waiting, and each of its own instructions
brings it nearer. -/
theorem Contended.step (contended : Contended slock c m) (permitted : Permitted a m ∧ a ≠ .lose c)
    (next : Spinlock.step a m = some m') (untaken : ∀ e ∈ event a m, ¬∃ d, e = .acquire d slock) :
    Contended slock c m' ∧ (m'.cpus c).rank + (if a = .step c then 1 else 0) ≤ (m.cpus c).rank := by
  obtain ⟨⟨owner,simulates,free⟩,waits⟩ := contended
  obtain ⟨owner',traced,simulates'⟩ := simulates.step permitted.1 next
  have free' := lock_stays_free traced free untaken
  by_cases mine : a.cpu = c
  · cases a with
    | acquire d other =>
      obtain rfl : d = c := mine
      simp only [Spinlock.step] at next
      split at next
      · next place => simp [Cpu.Waits,place] at waits
      · contradiction
    | release d other =>
      obtain rfl : d = c := mine
      simp only [Spinlock.step] at next
      split at next
      · next place => simp [Cpu.Waits,place] at waits
      · contradiction
    | lose d =>
      obtain rfl : d = c := mine
      exact absurd rfl permitted.2
    | step d =>
      obtain rfl : d = c := mine
      obtain ⟨waits',nearer⟩ := step_nearer simulates free waits next untaken
      exact ⟨⟨⟨owner',simulates',free'⟩,waits'⟩,by simpa using nearer⟩
  · have foreign : a ≠ .step c := by
      rintro rfl
      exact mine rfl
    rw [if_neg foreign]
    obtain same | ⟨other,same,stores⟩ := step_other next mine
    · rw [same]
      exact ⟨⟨⟨owner',simulates',free'⟩,same ▸ waits⟩,Nat.le_refl _⟩
    · have apart : other ≠ slock := by
        rintro rfl
        rcases stores with acquires | releases
        · exact untaken _ (by rw [acquires]; exact List.mem_cons_self) ⟨_,rfl⟩
        · rw [releases] at traced
          simp [lockStep,free] at traced
      have linked : (m'.cpus c).link = some slock ↔ (m.cpus c).link = some slock := by
        rw [same,Cpu.unlink]
        dsimp only
        split
        · next gone => simp [gone,apart]
        · exact Iff.rfl
      have alike : (m'.cpus c).rank = (m.cpus c).rank ∧ (m'.cpus c).Waits slock := by
        obtain ⟨here,place⟩ := waits
        rw [same] at linked ⊢
        refine ⟨?_,here,place⟩
        subst here
        unfold Cpu.rank
        simp only [Cpu.unlink] at linked ⊢
        simp only [linked]
      exact ⟨⟨⟨owner',simulates',free'⟩,alike.2⟩,by rw [alike.1]; exact Nat.le_refl _⟩

/-- While a lock is free, a CPU that waits for it and keeps its link bit but for stores of other
CPUs needs at most eight instructions until some CPU gets the lock, whatever the others do. -/
theorem spinlock_progress (before : Meets step Permitted past start) (reached : run step past start = some m)
    (free : m.memory slock = 0) (waits : (m.cpus c).Waits slock)
    (meets : Meets step (fun a m => Permitted a m ∧ a ≠ .lose c) actions m) (ran : run step actions m = some m')
    (many : 8 ≤ actions.count (.step c)) : ∃ d, .acquire d slock ∈ traceOf step event actions m := by
  obtain ⟨owner,_,simulates⟩ := run_refines
    (fun a m m' owner simulates permitted next => Simulates.step simulates permitted next) start_simulates before reached
  have vacant : owner slock = none := by
    by_contra taken
    have word := simulates.words slock
    rw [if_neg taken,free] at word
    contradiction
  have contended : Contended slock c m := ⟨⟨owner,simulates,vacant⟩,waits⟩
  have small := rank_le (m.cpus c)
  have progress : ∀ a m m', Contended slock c m → Permitted a m ∧ a ≠ .lose c → step a m = some m' →
      (∀ e ∈ event a m, ¬∃ d, e = .acquire d slock) → Contended slock c m' ∧
        (m'.cpus c).rank + (if (a == .step c) = true then 1 else 0) ≤ (m.cpus c).rank := by
    intro a m m' contended permitted next untaken
    simpa using contended.step permitted next untaken
  have reached : ∃ e ∈ traceOf step event actions m, ∃ d, e = .acquire d slock :=
    run_until (fun m => (m.cpus c).rank) (fun a => a == .step c) _ progress contended meets ran
      (show (m.cpus c).rank < actions.count (.step c) by omega)
  obtain ⟨e,member,d,rfl⟩ := reached
  exact ⟨d,member⟩

/-- A CPU that was interrupted after its `ll`: its first `sc` fails and its second does not. -/
def interrupted : List Action := [.acquire 1 4,.step 1,.lose 1]

theorem spinlock_progress_interrupted : ∃ m m', run step interrupted start = some m ∧
    run step (List.replicate 8 (.step 1)) m = some m' ∧
    ∃ d, .acquire d 4 ∈ traceOf step event (List.replicate 8 (.step 1)) m :=
  ⟨_,_,rfl,rfl,spinlock_progress (c := 1) (show Meets step Permitted interrupted start by decide) rfl rfl
    ⟨rfl,.inr (.inl rfl)⟩ (by decide) rfl (by decide)⟩

end Buenos.Kernel.Spinlock
