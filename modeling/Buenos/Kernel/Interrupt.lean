import Mathlib.Data.List.Basic
import Mathlib.Logic.Function.Basic

/-! The registered interrupt handlers of `kernel/interrupt.c`. -/
namespace Buenos.Kernel.Interrupt

def configMaxDevices : Nat := 128
def interruptMaskAll : BitVec 32 := 0xff00
def interruptCauseSoftware0 : BitVec 32 := 0x100
def interruptCauseHardware5 : BitVec 32 := 0x8000

/-- A row of `interrupt_handlers`; the device 0 is NULL. Handlers are numbered. -/
structure Entry where
  device : Nat
  irq : BitVec 32
  handler : Nat

/-- The table, and what is in memory behind it. -/
abbrev Handlers := Nat → Entry

def interruptInit (memory : Handlers) : Handlers := fun i => if i < configMaxDevices then ⟨0,0,0⟩ else memory i

/-- The loop of `interrupt_register` from a row on. It reads the row before it checks that there
is one. -/
def firstEmpty (table : Handlers) : Nat → Nat → Nat
  | 0, i => i
  | left + 1, i => if (table i).device ≠ 0 ∧ i < configMaxDevices then firstEmpty table left (i + 1) else i

/-- `none` is a kernel panic. -/
def interruptRegister (irq : BitVec 32) (handler device : Nat) (table : Handlers) : Option Handlers :=
  if irq &&& ~~~interruptMaskAll ≠ 0#32 then none
  else
    let i := firstEmpty table (configMaxDevices + 1) 0
    if configMaxDevices ≤ i then none else some (Function.update table i ⟨device,irq,handler⟩)

/-- What `interrupt_handle` does, in this order. -/
inductive Effect where
  | clearSw0
  | call (handler device : Nat)
  | schedule
  deriving DecidableEq

def callHandlers (table : Handlers) (cause : BitVec 32) : Nat → Nat → List Effect
  | 0, _ => []
  | left + 1, i =>
    if (table i).device = 0 then []
    else
      (if cause &&& (table i).irq ≠ 0#32 then [.call (table i).handler (table i).device] else []) ++
        callHandlers table cause left (i + 1)

/-- `idle` says whether the CPU runs the idle thread. `none` is a kernel panic. -/
def interruptHandle (table : Handlers) (cause : BitVec 32) (idle : Bool) : Option (List Effect) :=
  if cause &&& 0x7c ≠ 0#32 then none
  else
    some ((if cause &&& interruptCauseSoftware0 ≠ 0#32 then [.clearSw0] else []) ++
      callHandlers table cause configMaxDevices 0 ++
      if cause &&& (interruptCauseSoftware0 ||| interruptCauseHardware5) ≠ 0#32 ∨ idle then [.schedule] else [])

def registerAll : List Entry → Handlers → Option Handlers
  | [], table => some table
  | e :: rest, table => (interruptRegister e.irq e.handler e.device table).bind (registerAll rest)

/-- A driver registers a device of its own for interrupts there are. -/
structure Entry.Valid (e : Entry) : Prop where
  device : e.device ≠ 0
  irq : e.irq &&& ~~~interruptMaskAll = 0#32

/-- The table holds these entries and is empty behind them. -/
structure Registered (table : Handlers) (entries : List Entry) : Prop where
  room : entries.length ≤ configMaxDevices
  devices : ∀ e ∈ entries, e.device ≠ 0
  rows : ∀ i (inside : i < entries.length), table i = entries[i]
  empty : ∀ i, entries.length ≤ i → i < configMaxDevices → (table i).device = 0

theorem Registered.firstEmpty (registered : Registered table entries) (left i : Nat) (place : i ≤ entries.length)
    (enough : entries.length < i + left) : Interrupt.firstEmpty table left i = entries.length := by
  have room := registered.room
  induction left generalizing i with
  | zero => omega
  | succ left ih =>
    rw [Interrupt.firstEmpty]
    by_cases inside : i < entries.length
    · have used : (table i).device ≠ 0 := by
        rw [registered.rows i inside]
        exact registered.devices _ (List.getElem_mem inside)
      rw [if_pos ⟨used,by omega⟩]
      exact ih (i + 1) inside (by omega)
    · have here : i = entries.length := by omega
      subst here
      refine if_neg ?_
      rintro ⟨used,small⟩
      exact used (registered.empty _ (Nat.le_refl _) small)

theorem Registered.register (registered : Registered table entries) (valid : e.Valid) :
    (entries.length < configMaxDevices → ∃ table', interruptRegister e.irq e.handler e.device table = some table' ∧
      Registered table' (entries ++ [e])) ∧
    (entries.length = configMaxDevices → interruptRegister e.irq e.handler e.device table = none) := by
  have next := registered.firstEmpty (configMaxDevices + 1) 0 (Nat.zero_le _) (by have := registered.room; omega)
  have lawful : ¬e.irq &&& ~~~interruptMaskAll ≠ 0#32 := fun bad => bad valid.irq
  rw [interruptRegister,if_neg lawful,next]
  constructor
  · intro room
    refine ⟨_,if_neg (by omega),by rw [List.length_append,List.length_singleton]; omega,?_,?_,?_⟩
    · intro f member
      obtain old | new := List.mem_append.mp member
      · exact registered.devices f old
      · rw [List.mem_singleton.mp new]
        exact valid.device
    · intro i inside
      by_cases last : i = entries.length
      · subst last
        simp
      · have small : i < entries.length := by
          rw [List.length_append,List.length_singleton] at inside
          omega
        rw [Function.update_of_ne last,List.getElem_append_left small]
        exact registered.rows i small
    · intro i high small
      rw [List.length_append,List.length_singleton] at high
      rw [Function.update_of_ne (by omega)]
      exact registered.empty i (by omega) small
  · intro full
    exact if_pos (by omega)

theorem registerAll_registered (registered : Registered table entries) (valid : ∀ e ∈ more, e.Valid) :
    (entries.length + more.length ≤ configMaxDevices →
      ∃ table', registerAll more table = some table' ∧ Registered table' (entries ++ more)) ∧
    (configMaxDevices < entries.length + more.length → registerAll more table = none) := by
  induction more generalizing table entries with
  | nil =>
    refine ⟨fun _ => ⟨table,rfl,by simpa using registered⟩,fun full => ?_⟩
    have room := registered.room
    rw [List.length_nil] at full
    omega
  | cons e rest ih =>
    obtain ⟨takes,panics⟩ := registered.register (valid e List.mem_cons_self)
    have room := registered.room
    rw [List.length_cons,registerAll]
    by_cases full : entries.length = configMaxDevices
    · rw [panics full]
      exact ⟨fun fits => by omega,fun _ => rfl⟩
    · obtain ⟨between,took,now⟩ := takes (by omega)
      have later := ih now fun f member => valid f (List.mem_cons_of_mem e member)
      rw [List.length_append,List.length_singleton,List.append_assoc,List.singleton_append] at later
      rw [took,Option.bind_some]
      exact ⟨fun fits => later.1 (by omega),fun fails => later.2 (by omega)⟩

theorem Registered.callHandlers (registered : Registered table entries) (cause : BitVec 32) (left i : Nat)
    (all : i + left = configMaxDevices) :
    Interrupt.callHandlers table cause left i =
      ((entries.drop i).filter fun e => cause &&& e.irq ≠ 0#32).map fun e => .call e.handler e.device := by
  induction left generalizing i with
  | zero =>
    have room := registered.room
    rw [List.drop_eq_nil_of_le (by omega)]
    rfl
  | succ left ih =>
    rw [Interrupt.callHandlers]
    by_cases inside : i < entries.length
    · have row := registered.rows i inside
      rw [if_neg (by rw [row]; exact registered.devices _ (List.getElem_mem inside)),ih (i + 1) (by omega),row,
        List.drop_eq_getElem_cons inside,List.filter_cons]
      by_cases meant : cause &&& entries[i].irq = 0#32
      · simp [meant]
      · simp [meant]
    · rw [if_pos (registered.empty i (by omega) (by omega)),List.drop_eq_nil_of_le (by omega)]
      rfl

/-- At most 128 handlers can be registered. Then an interrupt calls exactly those that are registered
for one of its causes, each with its own device and in the order of registration; the context is
switched for a timer interrupt, on request, and whenever the CPU was idle. -/
theorem interrupt_handlers_called (memory : Handlers) (valid : ∀ e ∈ entries, e.Valid) :
    (configMaxDevices < entries.length → registerAll entries (interruptInit memory) = none) ∧
    (entries.length ≤ configMaxDevices → ∃ table, registerAll entries (interruptInit memory) = some table ∧
      ∀ cause idle, cause &&& 0x7c = 0#32 → ∃ first last, interruptHandle table cause idle =
          some (first ++ ((entries.filter fun e => cause &&& e.irq ≠ 0#32).map fun e => .call e.handler e.device) ++ last) ∧
        first = (if cause &&& interruptCauseSoftware0 ≠ 0#32 then [.clearSw0] else []) ∧
        (last = [.schedule] ↔ cause &&& interruptCauseSoftware0 ≠ 0#32 ∨ cause &&& interruptCauseHardware5 ≠ 0#32 ∨ idle = true) ∧
        (last = [.schedule] ∨ last = [])) := by
  have initial : Registered (interruptInit memory) [] := by
    refine ⟨Nat.zero_le _,nofun,fun i inside => absurd inside (Nat.not_lt_zero i),fun i _ small => ?_⟩
    rw [interruptInit,if_pos small]
  obtain ⟨fits,full⟩ := registerAll_registered initial valid
  simp only [List.length_nil,Nat.zero_add,List.nil_append] at fits full
  refine ⟨full,fun room => ?_⟩
  obtain ⟨table,took,registered⟩ := fits room
  refine ⟨table,took,fun cause idle lawful => ?_⟩
  have either : cause &&& (interruptCauseSoftware0 ||| interruptCauseHardware5) ≠ 0#32 ↔
      cause &&& interruptCauseSoftware0 ≠ 0#32 ∨ cause &&& interruptCauseHardware5 ≠ 0#32 := by
    rw [← not_and_or]
    refine not_congr ?_
    rw [BitVec.and_or_distrib_left,BitVec.or_eq_zero_iff]
  rw [interruptHandle,if_neg fun bad => bad lawful,registered.callHandlers cause configMaxDevices 0 (Nat.zero_add _)]
  refine ⟨_,_,rfl,rfl,?_,?_⟩
  · rw [← or_assoc,← either]
    split
    · next now => exact ⟨fun _ => now,fun _ => rfl⟩
    · next never => exact ⟨nofun,fun now => absurd now never⟩
  · split
    · exact .inl rfl
    · exact .inr rfl

/-- A device on line 0 and the timer, both pending. -/
theorem interrupt_handlers_called_both : ∃ table first last,
    registerAll [⟨5,0x400,1⟩,⟨6,0x8000,2⟩] (interruptInit fun _ => ⟨7,0,0⟩) = some table ∧
    interruptHandle table 0x8400 false = some (first ++ [.call 1 5,.call 2 6] ++ last) ∧ last = [.schedule] := by
  have valid : ∀ e ∈ [(⟨5,0x400,1⟩ : Entry),⟨6,0x8000,2⟩], e.Valid := by
    intro e member
    simp only [List.mem_cons,List.not_mem_nil,or_false] at member
    rcases member with rfl | rfl
    · exact ⟨by decide,by decide⟩
    · exact ⟨by decide,by decide⟩
  obtain ⟨table,took,handles⟩ := (interrupt_handlers_called (fun _ => ⟨7,0,0⟩) valid).2 (by decide)
  obtain ⟨first,last,done,_,switched,_⟩ := handles 0x8400 false (by decide)
  exact ⟨table,first,last,took,done,switched.mpr (by decide)⟩

end Buenos.Kernel.Interrupt
