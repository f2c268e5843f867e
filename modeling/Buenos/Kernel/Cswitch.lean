import Buenos.Foundation.Refinement
import Mathlib.Logic.Function.Basic
import Mathlib.Data.Fintype.Basic

/-! The context switch of `kernel/cswitch.S`. An exception saves the registers below the stack of
the thread that runs and links the context to the one before; the return takes the newest
context of the thread that has been chosen meanwhile. -/
namespace Buenos.Kernel.Cswitch

open Buenos.Foundation

/-! ### The code -/

/-- The registers of `context_t` in its order (`at` is 0, `sp` 26, `ra` 28), and what else is saved. -/
structure Cpu where
  regs : Fin 29 → Nat
  hi : Nat
  lo : Nat
  epc : Nat
  status : Nat

def mipsRegisterSp : Fin 29 := 26

/-- The interrupt mask, the master enable and the user mode bit. -/
def savedStatus : Nat := 0xff11

abbrev Words := Fin 33 → Nat

/-- The words of a context but for the link: 29 registers, `hi`, `lo`, `EPC` and bits of `Status`. -/
def Cpu.words (cpu : Cpu) : Words := fun i =>
  if inside : i.val < 29 then cpu.regs ⟨i.val,inside⟩
  else if i.val = 29 then cpu.hi
  else if i.val = 30 then cpu.lo
  else if i.val = 31 then cpu.epc
  else cpu.status &&& savedStatus

/-- Word `i` goes to offset `4 * i`, one store after the other. -/
def storeWords (place : Nat) (words : Words) (memory : Nat → Nat) : Nat → Nat :=
  (List.finRange 33).foldl (fun memory i => Function.update memory (place + 4 * i.val) (words i)) memory

/-- `_cswitch_context_save` -/
def contextSave (k0 : Nat) (cpu : Cpu) (memory : Nat → Nat) : Nat → Nat := storeWords k0 cpu.words memory

/-- `_cswitch_context_restore` -/
def contextRestore (k0 : Nat) (cpu : Cpu) (memory : Nat → Nat) : Cpu where
  regs := fun i => memory (k0 + 4 * i.val)
  hi := memory (k0 + 116)
  lo := memory (k0 + 120)
  epc := memory (k0 + 124)
  status := (cpu.status &&& 0xffff00ee) ||| memory (k0 + 128)

structure Frame where
  address : Nat
  words : Words

/-- `contexts` are the context pointers of the thread table. `live` are the contexts saved and
not yet restored, newest first, and `base` those made with the threads; no code reads them. -/
structure System where
  memory : Nat → Nat
  contexts : Nat → Nat
  cpus : Nat → Cpu
  current : Nat → Nat
  live : Nat → List Frame
  base : Nat → Option Frame

def idleThreadTid : Nat := 0

/-- The hardware's part of an exception: the address to return to, and the exception level. -/
def Cpu.trapped (cpu : Cpu) (epc : Nat) : Cpu := { cpu with epc := epc, status := cpu.status ||| 2 }

/-- Where the context goes: below the stack pointer in kernel mode, and from user mode below the
stack pointer that is saved in the thread's newest context. -/
def newContext (c : Nat) (s : System) : Nat :=
  (if (s.cpus c).status &&& 0x10 = 0 then (s.cpus c).regs mipsRegisterSp
    else s.memory (s.contexts (s.current c) + 104)) - 136

/-- From the exception to the call of the handler. An interrupt runs on the CPU's own stack. The
other registers that are used on the way have been saved; `execute` stands for that. -/
def trap (interruptStacks : Nat → Nat) (c epc : Nat) (interrupt : Bool) (s : System) : System :=
  let cpu := (s.cpus c).trapped epc
  let tid := s.current c
  let k0 := newContext c s
  { s with
    memory := Function.update (contextSave k0 cpu s.memory) (k0 + 132) (s.contexts tid)
    -- the idle thread has no context worth keeping
    contexts := if tid = idleThreadTid then s.contexts else Function.update s.contexts tid k0
    cpus := Function.update s.cpus c
      { cpu with
        regs := Function.update cpu.regs mipsRegisterSp ((if interrupt then interruptStacks c else k0) - 4)
        status := cpu.status &&& 0xffffffef }
    live := if tid = idleThreadTid then s.live else Function.update s.live tid (⟨k0,cpu.words⟩ :: s.live tid) }

/-- From the return of the handler to `eret`. -/
def resume (c : Nat) (s : System) : System :=
  let tid := s.current c
  let k0 := s.contexts tid
  { s with
    contexts := Function.update s.contexts tid (s.memory (k0 + 132))
    cpus := Function.update s.cpus c (contextRestore k0 (s.cpus c) s.memory)
    live := Function.update s.live tid (s.live tid).tail }

/-- `execute` stands for any other code: of a thread, of user mode or of a handler. `amend` is a
handler that changes the context of its thread, as system calls do. -/
inductive Action where
  | trap (c epc : Nat) (interrupt : Bool)
  | resume (c : Nat)
  | execute (c : Nat) (cpu : Cpu) (memory : Nat → Nat)
  | amend (c : Nat) (i : Fin 33) (value : Nat)
  | schedule (c tid : Nat)
  | create (tid address : Nat) (words : Words)

/-- The words of a new context, and the link to itself. -/
def writeContext (address : Nat) (words : Words) (memory : Nat → Nat) : Nat → Nat :=
  Function.update (storeWords address words memory) (address + 132) address

def amendFrame (frames : List Frame) (i : Fin 33) (value : Nat) : List Frame :=
  match frames with
  | [] => []
  | f :: rest => { f with words := Function.update f.words i value } :: rest

def step (interruptStacks : Nat → Nat) (a : Action) (s : System) : Option System :=
  match a with
  | .trap c epc interrupt => some (trap interruptStacks c epc interrupt s)
  | .resume c => some (resume c s)
  | .execute c cpu memory => some { s with cpus := Function.update s.cpus c cpu, memory := memory }
  | .amend c i value =>
    some { s with
      memory := Function.update s.memory (s.contexts (s.current c) + 4 * i.val) value
      live := Function.update s.live (s.current c) (amendFrame (s.live (s.current c)) i value) }
  | .schedule c tid => some { s with current := Function.update s.current c tid }
  | .create tid address words =>
    some { s with
      memory := writeContext address words s.memory
      contexts := Function.update s.contexts tid address
      live := Function.update s.live tid []
      base := Function.update s.base tid (some ⟨address,words⟩) }

def framesOf (live : Nat → List Frame) (base : Nat → Option Frame) (tid : Nat) : List Frame :=
  live tid ++ (base tid).toList

def System.frames (s : System) (tid : Nat) : List Frame := framesOf s.live s.base tid

/-- The contexts do not overlap. -/
def Apart (a b : Nat) : Prop := a + 136 ≤ b ∨ b + 136 ≤ a

/-- What the context switch relies on: a stack pointer is below the contexts on its stack and
stacks are apart, other code leaves contexts alone, and threads exist that run. -/
def Permitted (a : Action) (s : System) : Prop :=
  match a with
  | .trap c _ _ => s.base (s.current c) ≠ none ∧ ∀ t, ∀ f ∈ s.frames t, Apart (newContext c s) f.address
  | .resume c => s.base (s.current c) ≠ none
  | .execute _ _ memory => ∀ t, ∀ f ∈ s.frames t, ∀ j < 34, memory (f.address + 4 * j) = s.memory (f.address + 4 * j)
  | .amend c i _ => s.base (s.current c) ≠ none ∧ s.live (s.current c) ≠ [] ∧ i.val < 32
  | .schedule _ _ => True
  | .create tid address words => (∀ t, t ≠ tid → ∀ f ∈ s.frames t, Apart address f.address) ∧
    words 32 &&& savedStatus = words 32

/-! ### Stacks of contexts -/

/-- For each thread the state it starts in and those to go back to, newest first. -/
structure Stacks where
  initial : Nat → Words
  saved : Nat → List Words

inductive Event where
  | trap (tid : Nat) (words : Words)
  | resume (tid : Nat) (words : Words)
  | amend (tid : Nat) (i : Fin 33) (value : Nat)
  | create (tid : Nat) (words : Words)

def amendTop (saved : List Words) (i : Fin 33) (value : Nat) : List Words :=
  match saved with
  | [] => []
  | w :: rest => Function.update w i value :: rest

/-- A thread goes back to what it was at its last exception that has not returned, and one without
such exceptions, like the idle thread always, to its start. -/
def stackStep (e : Event) (t : Stacks) : Option Stacks :=
  match e with
  | .trap tid words =>
    some (if tid = idleThreadTid then t else { t with saved := Function.update t.saved tid (words :: t.saved tid) })
  | .resume tid words =>
    match t.saved tid with
    | top :: rest => if words = top then some { t with saved := Function.update t.saved tid rest } else none
    | [] => if words = t.initial tid then some t else none
  | .amend tid i value => some { t with saved := Function.update t.saved tid (amendTop (t.saved tid) i value) }
  | .create tid words =>
    some ⟨Function.update t.initial tid words,Function.update t.saved tid []⟩

/-- An exception has the state that it interrupts, a return the state that it leads to. -/
def event (a : Action) (s : System) : List Event :=
  match a with
  | .trap c epc _ => [.trap (s.current c) ((s.cpus c).trapped epc).words]
  | .resume c => [.resume (s.current c) ((resume c s).cpus c).words]
  | .amend c i value => [.amend (s.current c) i value]
  | .create tid _ words => [.create tid words]
  | .execute _ _ _ => []
  | .schedule _ _ => []

/-! ### The invariant -/

structure Held (memory : Nat → Nat) (f : Frame) : Prop where
  words : ∀ i : Fin 33, memory (f.address + 4 * i.val) = f.words i
  status : f.words 32 &&& savedStatus = f.words 32

/-- The pointer leads to the contexts in their order, and at the end to the base. -/
def Chained (memory : Nat → Nat) (base : Nat) : List Frame → Nat → Prop
  | [], context => context = base
  | f :: rest, context => context = f.address ∧ Chained memory base rest (memory (f.address + 132))

structure Sound (memory contexts : Nat → Nat) (live : Nat → List Frame) (base : Nat → Option Frame) : Prop where
  held : ∀ t, ∀ f ∈ framesOf live base t, Held memory f
  chained : ∀ t b, base t = some b → Chained memory b.address (live t) (contexts t)
  looped : ∀ t b, base t = some b → memory (b.address + 132) = b.address
  idle : live idleThreadTid = []
  within : ∀ t, (framesOf live base t).Pairwise fun f g => Apart f.address g.address
  across : ∀ t u, t ≠ u → ∀ f ∈ framesOf live base t, ∀ g ∈ framesOf live base u, Apart f.address g.address

/-- The stacks of the threads that there are. -/
structure Simulates (s : System) (t : Stacks) : Prop where
  sound : Sound s.memory s.contexts s.live s.base
  saved : ∀ tid, t.saved tid = (s.live tid).map Frame.words
  initial : ∀ tid b, s.base tid = some b → t.initial tid = b.words

/-! ### Saving and restoring -/

theorem foldl_other (place : Nat) (words : Words) (l : List (Fin 33)) (memory : Nat → Nat)
    (other : ∀ i ∈ l, a ≠ place + 4 * i.val) :
    l.foldl (fun memory i => Function.update memory (place + 4 * i.val) (words i)) memory a = memory a := by
  induction l generalizing memory with
  | nil => rfl
  | cons i rest ih =>
    rw [List.foldl_cons,ih _ fun j member => other j (List.mem_cons_of_mem i member)]
    exact Function.update_of_ne (other i List.mem_cons_self) _ _

theorem foldl_self (place : Nat) (words : Words) (l : List (Fin 33)) (memory : Nat → Nat) (member : i ∈ l) :
    l.foldl (fun memory i => Function.update memory (place + 4 * i.val) (words i)) memory (place + 4 * i.val) = words i := by
  induction l generalizing memory with
  | nil => contradiction
  | cons j rest ih =>
    rw [List.foldl_cons]
    by_cases later : i ∈ rest
    · exact ih _ later
    · have same : i = j := by simpa [later] using member
      subst same
      rw [foldl_other place words rest _ fun k there equal => later (by
        have : i = k := Fin.ext (by omega)
        rwa [this])]
      simp

/-- After the words of a context and its link have been written. -/
theorem written (place link : Nat) (words : Words) (memory : Nat → Nat) :
    (∀ i : Fin 33, Function.update (storeWords place words memory) (place + 132) link (place + 4 * i.val) = words i) ∧
    Function.update (storeWords place words memory) (place + 132) link (place + 132) = link ∧
    ∀ a, a < place ∨ place + 136 ≤ a → Function.update (storeWords place words memory) (place + 132) link a = memory a := by
  refine ⟨fun i => ?_,by simp,fun a outside => ?_⟩
  · have small := i.isLt
    rw [Function.update_of_ne (by omega),storeWords,foldl_self place words _ memory (List.mem_finRange i)]
  · rw [Function.update_of_ne (by omega)]
    refine foldl_other place words _ memory fun i _ => ?_
    have small := i.isLt
    omega

theorem restored_words (held : Held memory f) (cpu : Cpu) : (contextRestore f.address cpu memory).words = f.words := by
  funext i
  have word := held.words i
  unfold Cpu.words contextRestore
  dsimp only
  have small := i.isLt
  split
  · exact word
  · split
    · next place => rw [place] at word; exact word
    · split
      · next place => rw [place] at word; exact word
      · split
        · next place => rw [place] at word; exact word
        · have last : i = 32 := Fin.ext (by show i.val = 32; omega)
          subst last
          have mask : 0xffff00ee &&& savedStatus = 0 := by decide
          have stored : memory (f.address + 128) = f.words 32 := word
          rw [stored,Nat.and_or_distrib_right,Nat.and_assoc,mask,Nat.and_zero,Nat.zero_or,held.status]

/-! ### The steps -/

theorem Apart.outside (apart : Apart place f) (small : j < 34) : f + 4 * j < place ∨ place + 136 ≤ f + 4 * j := by
  unfold Apart at apart
  omega

theorem Chained.congr (same : ∀ f ∈ frames, memory' (f.address + 132) = memory (f.address + 132))
    (chained : Chained memory base frames context) : Chained memory' base frames context := by
  induction frames generalizing context with
  | nil => exact chained
  | cons f rest ih =>
    obtain ⟨here,later⟩ := chained
    refine ⟨here,?_⟩
    rw [same f List.mem_cons_self]
    exact ih (fun g member => same g (List.mem_cons_of_mem f member)) later

section Sound
variable {memory contexts : Nat → Nat} {live : Nat → List Frame} {base : Nat → Option Frame}

theorem mem_framesOf : f ∈ framesOf live base t ↔ f ∈ live t ∨ base t = some f := by
  unfold framesOf
  rw [List.mem_append,Option.mem_toList]

theorem Sound.rewrite (sound : Sound memory contexts live base)
    (kept : ∀ t, ∀ f ∈ framesOf live base t, ∀ j < 34, memory' (f.address + 4 * j) = memory (f.address + 4 * j)) :
    Sound memory' contexts live base := by
  refine ⟨?_,?_,?_,sound.idle,sound.within,sound.across⟩
  · intro t f member
    have old := sound.held t f member
    refine ⟨fun i => ?_,old.status⟩
    rw [kept t f member i.val (by have := i.isLt; omega)]
    exact old.words i
  · intro t b here
    refine (sound.chained t b here).congr fun f member => ?_
    exact kept t f (mem_framesOf.mpr (.inl member)) 33 (by decide)
  · intro t b here
    exact (kept t b (mem_framesOf.mpr (.inr here)) 33 (by decide)).trans (sound.looped t b here)

theorem Sound.push (sound : Sound memory contexts live base) (busy : tid ≠ idleThreadTid) (held : Held memory f)
    (link : memory (f.address + 132) = contexts tid) (clear : ∀ t, ∀ g ∈ framesOf live base t, Apart f.address g.address) :
    Sound memory (Function.update contexts tid f.address) (Function.update live tid (f :: live tid)) base := by
  have self : framesOf (Function.update live tid (f :: live tid)) base tid = f :: framesOf live base tid := by
    simp [framesOf]
  have other : ∀ t, t ≠ tid → framesOf (Function.update live tid (f :: live tid)) base t = framesOf live base t := by
    intro t apart
    simp [framesOf,Function.update_of_ne apart]
  refine ⟨?_,?_,sound.looped,?_,?_,?_⟩
  · intro t g member
    by_cases mine : t = tid
    · subst mine
      rw [self] at member
      obtain rfl | old := List.mem_cons.mp member
      · exact held
      · exact sound.held t g old
    · rw [other t mine] at member
      exact sound.held t g member
  · intro t b here
    by_cases mine : t = tid
    · subst mine
      rw [Function.update_self,Function.update_self]
      exact ⟨rfl,link ▸ sound.chained t b here⟩
    · rw [Function.update_of_ne mine,Function.update_of_ne mine]
      exact sound.chained t b here
  · rw [Function.update_of_ne (Ne.symm busy)]
    exact sound.idle
  · intro t
    by_cases mine : t = tid
    · subst mine
      rw [self]
      exact List.pairwise_cons.mpr ⟨clear t,sound.within t⟩
    · rw [other t mine]
      exact sound.within t
  · intro t u different g member h there
    have clear' : ∀ v, ∀ g ∈ framesOf live base v, Apart g.address f.address := fun v g member => (clear v g member).symm
    by_cases mine : t = tid
    · subst mine
      rw [self] at member
      rw [other u (Ne.symm different)] at there
      obtain rfl | old := List.mem_cons.mp member
      · exact clear u h there
      · exact sound.across t u different g old h there
    · rw [other t mine] at member
      by_cases theirs : u = tid
      · subst theirs
        rw [self] at there
        obtain rfl | old := List.mem_cons.mp there
        · exact clear' t g member
        · exact sound.across t u different g member h old
      · rw [other u theirs] at there
        exact sound.across t u different g member h there

theorem Sound.shrink (sound : Sound memory contexts live base) (fewer : rest.Sublist (live tid))
    (chained : ∀ b, base tid = some b → Chained memory b.address rest context) :
    Sound memory (Function.update contexts tid context) (Function.update live tid rest) base := by
  have smaller : ∀ t, (framesOf (Function.update live tid rest) base t).Sublist (framesOf live base t) := by
    intro t
    by_cases mine : t = tid
    · subst mine
      simpa [framesOf] using fewer
    · simp [framesOf,Function.update_of_ne mine]
  refine ⟨fun t f member => sound.held t f ((smaller t).subset member),?_,sound.looped,?_,
    fun t => (sound.within t).sublist (smaller t),
    fun t u different f member g there =>
      sound.across t u different f ((smaller t).subset member) g ((smaller u).subset there)⟩
  · intro t b here
    by_cases mine : t = tid
    · subst mine
      rw [Function.update_self,Function.update_self]
      exact chained b here
    · rw [Function.update_of_ne mine,Function.update_of_ne mine]
      exact sound.chained t b here
  · by_cases mine : idleThreadTid = tid
    · subst mine
      rw [Function.update_self]
      rw [sound.idle] at fewer
      exact List.sublist_nil.mp fewer
    · rw [Function.update_of_ne mine]
      exact sound.idle

theorem Sound.amend (sound : Sound memory contexts live base) (value : Nat) (born : base tid = some b)
    (top : live tid = f :: rest)
    (inside : i.val < 32) :
    Sound (Function.update memory (f.address + 4 * i.val) value) contexts
      (Function.update live tid ({ f with words := Function.update f.words i value } :: rest)) base := by
  have busy : tid ≠ idleThreadTid := by
    rintro rfl
    rw [sound.idle] at top
    contradiction
  have mine : f ∈ framesOf live base tid := mem_framesOf.mpr (.inl (by rw [top]; exact List.mem_cons_self))
  have below : ∀ t, ∀ g ∈ framesOf (Function.update live tid rest) base t, Apart f.address g.address := by
    intro t g member
    by_cases same : t = tid
    · subst same
      have order := sound.within t
      rw [framesOf,top,List.cons_append] at order
      have there : g ∈ rest ++ (base t).toList := by simpa [framesOf] using member
      exact (List.pairwise_cons.mp order).1 g there
    · rw [framesOf,Function.update_of_ne same] at member
      exact sound.across tid t (Ne.symm same) f mine g member
  have without : Sound memory (Function.update contexts tid (memory (f.address + 132))) (Function.update live tid rest) base :=
    sound.shrink (by rw [top]; exact List.sublist_cons_self f rest)
    (fun b here => by
      have chain := sound.chained tid b here
      rw [top] at chain
      exact chain.2)
  have changed : Sound (Function.update memory (f.address + 4 * i.val) value) (Function.update contexts tid (memory (f.address + 132)))
      (Function.update live tid rest) base := without.rewrite (by
    intro t g member j small
    refine Function.update_of_ne ?_ _ _
    have apart := below t g member
    unfold Apart at apart
    omega)
  have held := sound.held tid f mine
  have again := changed.push (f := { f with words := Function.update f.words i value }) busy (by
    refine ⟨fun k => ?_,?_⟩
    · by_cases same : k = i
      · subst same
        simp
      · have apart : k.val ≠ i.val := fun equal => same (Fin.ext equal)
        dsimp only
        rw [Function.update_of_ne (by omega),Function.update_of_ne same]
        exact held.words k
    · have last : (32 : Fin 33) ≠ i := by
        rintro rfl
        exact absurd inside (by decide)
      dsimp only
      rw [Function.update_of_ne last]
      exact held.status) (by
    rw [Function.update_self,Function.update_of_ne (by dsimp only; omega)]) below
  have here : contexts tid = f.address := by
    have chain := sound.chained tid b born
    rw [top] at chain
    exact chain.1
  rw [Function.update_idem,Function.update_idem,Function.update_self] at again
  dsimp only at again
  rwa [← here,Function.update_eq_self,here] at again

theorem Sound.create (sound : Sound memory contexts live base) (held : Held memory' f)
    (link : memory' (f.address + 132) = f.address)
    (clear : ∀ t, t ≠ tid → ∀ g ∈ framesOf live base t, Apart f.address g.address)
    (kept : ∀ t, t ≠ tid → ∀ g ∈ framesOf live base t, ∀ j < 34, memory' (g.address + 4 * j) = memory (g.address + 4 * j)) :
    Sound memory' (Function.update contexts tid f.address) (Function.update live tid [])
      (Function.update base tid (some f)) := by
  have self : framesOf (Function.update live tid []) (Function.update base tid (some f)) tid = [f] := by
    simp [framesOf]
  have other : ∀ t, t ≠ tid →
      framesOf (Function.update live tid []) (Function.update base tid (some f)) t = framesOf live base t := by
    intro t apart
    simp [framesOf,Function.update_of_ne apart]
  refine ⟨?_,?_,?_,?_,?_,?_⟩
  · intro t g member
    by_cases mine : t = tid
    · subst mine
      rw [self] at member
      rwa [List.mem_singleton.mp member]
    · rw [other t mine] at member
      have old := sound.held t g member
      refine ⟨fun i => ?_,old.status⟩
      rw [kept t mine g member i.val (by have := i.isLt; omega)]
      exact old.words i
  · intro t b here
    by_cases mine : t = tid
    · subst mine
      rw [Function.update_self] at here ⊢
      rw [Function.update_self]
      injection here with here
      rw [← here]
      rfl
    · rw [Function.update_of_ne mine] at here ⊢
      rw [Function.update_of_ne mine]
      refine (sound.chained t b here).congr fun g member => ?_
      exact kept t mine g (mem_framesOf.mpr (.inl member)) 33 (by decide)
  · intro t b here
    by_cases mine : t = tid
    · subst mine
      rw [Function.update_self] at here
      injection here with here
      rw [← here]
      exact link
    · rw [Function.update_of_ne mine] at here
      exact (kept t mine b (mem_framesOf.mpr (.inr here)) 33 (by decide)).trans (sound.looped t b here)
  · by_cases mine : idleThreadTid = tid
    · rw [mine,Function.update_self]
    · rw [Function.update_of_ne mine]
      exact sound.idle
  · intro t
    by_cases mine : t = tid
    · subst mine
      rw [self]
      exact List.pairwise_singleton _ f
    · rw [other t mine]
      exact sound.within t
  · intro t u different g member h there
    by_cases mine : t = tid
    · subst mine
      rw [self] at member
      rw [other u (Ne.symm different)] at there
      rw [List.mem_singleton.mp member]
      exact clear u (Ne.symm different) h there
    · rw [other t mine] at member
      by_cases theirs : u = tid
      · subst theirs
        rw [self] at there
        rw [List.mem_singleton.mp there]
        exact (clear t mine g member).symm
      · rw [other u theirs] at there
        exact sound.across t u different g member h there

end Sound

section Steps
variable {s : System} {t : Stacks} (simulates : Simulates s t)
include simulates

/-- The pointer of a thread leads to its newest context. -/
theorem Simulates.newest (born : s.base tid = some b) (top : s.live tid = f :: rest) :
    s.contexts tid = f.address ∧ Chained s.memory b.address rest (s.memory (f.address + 132)) := by
  have chain := simulates.sound.chained tid b born
  rwa [top] at chain

theorem Simulates.amend (permitted : Permitted (.amend c i value) s) : ∃ t',
    stackStep (.amend (s.current c) i value) t = some t' ∧ Simulates { s with
      memory := Function.update s.memory (s.contexts (s.current c) + 4 * i.val) value
      live := Function.update s.live (s.current c) (amendFrame (s.live (s.current c)) i value) } t' := by
  obtain ⟨born,nonempty,inside⟩ := permitted
  obtain ⟨b,born⟩ := Option.ne_none_iff_exists'.mp born
  obtain ⟨f,rest,top⟩ := List.exists_cons_of_ne_nil nonempty
  refine ⟨_,rfl,?_,?_,simulates.initial⟩
  · have amended := simulates.sound.amend value born top inside
    rw [(simulates.newest born top).1,top]
    exact amended
  · intro tid
    dsimp only
    by_cases mine : tid = s.current c
    · subst mine
      rw [Function.update_self,Function.update_self,simulates.saved,top]
      rfl
    · rw [Function.update_of_ne mine,Function.update_of_ne mine,simulates.saved]

theorem Simulates.create (permitted : Permitted (.create tid address words) s) : ∃ t',
    stackStep (.create tid words) t = some t' ∧ Simulates { s with
      memory := writeContext address words s.memory
      contexts := Function.update s.contexts tid address
      live := Function.update s.live tid []
      base := Function.update s.base tid (some ⟨address,words⟩) } t' := by
  obtain ⟨clear,masked⟩ := permitted
  obtain ⟨stored,link,others⟩ := written address address words s.memory
  refine ⟨_,rfl,?_,?_,?_⟩
  · have held : Held (writeContext address words s.memory) ⟨address,words⟩ := ⟨stored,masked⟩
    refine simulates.sound.create held link clear fun u apart g member j small => others _ ?_
    exact (clear u apart g member).outside small
  · intro u
    dsimp only
    by_cases mine : u = tid
    · subst mine
      rw [Function.update_self,Function.update_self]
      rfl
    · rw [Function.update_of_ne mine,Function.update_of_ne mine,simulates.saved]
  · intro u b here
    dsimp only at here ⊢
    by_cases mine : u = tid
    · subst mine
      rw [Function.update_self] at here ⊢
      injection here with here
      rw [← here]
    · rw [Function.update_of_ne mine] at here ⊢
      exact simulates.initial u b here

/-- The return reads a context that its thread has. -/
theorem Simulates.resume_words (c : Nat) (member : f ∈ s.frames (s.current c))
    (here : s.contexts (s.current c) = f.address) : ((resume c s).cpus c).words = f.words := by
  simp only [resume,Function.update_self,here]
  exact restored_words (simulates.sound.held _ f member) _

theorem Simulates.resume_sound (born : s.base (s.current c) = some b) :
    Sound s.memory (resume c s).contexts (resume c s).live s.base := by
  have chain := simulates.sound.chained _ b born
  refine simulates.sound.shrink (List.tail_sublist _) fun b' same => ?_
  rw [born] at same
  injection same with same
  subst same
  cases top : s.live (s.current c) with
  | nil =>
    rw [top] at chain
    rw [show s.contexts (s.current c) = b.address from chain]
    exact simulates.sound.looped _ b born
  | cons f rest =>
    rw [(simulates.newest born top).1]
    exact (simulates.newest born top).2

theorem Simulates.resume (permitted : Permitted (.resume c) s) : ∃ t',
    stackStep (.resume (s.current c) ((Cswitch.resume c s).cpus c).words) t = some t' ∧ Simulates (Cswitch.resume c s) t' := by
  obtain ⟨b,born⟩ := Option.ne_none_iff_exists'.mp permitted
  have shrunk := simulates.resume_sound born
  cases top : s.live (s.current c) with
  | nil =>
    have chain := simulates.sound.chained _ b born
    rw [top] at chain
    have words := simulates.resume_words c (mem_framesOf.mpr (.inr born)) chain
    refine ⟨t,?_,shrunk,fun tid => ?_,simulates.initial⟩
    · simp only [stackStep,simulates.saved,top,List.map_nil]
      rw [words,simulates.initial _ b born,if_pos rfl]
    · rw [simulates.saved]
      simp only [Cswitch.resume]
      by_cases mine : tid = s.current c
      · subst mine
        rw [Function.update_self,top]
        rfl
      · rw [Function.update_of_ne mine]
  | cons f rest =>
    have words := simulates.resume_words c (mem_framesOf.mpr (.inl (by rw [top]; exact List.mem_cons_self)))
      (simulates.newest born top).1
    refine ⟨{ t with saved := Function.update t.saved (s.current c) (rest.map Frame.words) },?_,shrunk,fun tid => ?_,
      simulates.initial⟩
    · simp only [stackStep,simulates.saved,top,List.map_cons]
      rw [words,if_pos rfl]
    · simp only [Cswitch.resume]
      by_cases mine : tid = s.current c
      · subst mine
        rw [Function.update_self,Function.update_self,top]
        rfl
      · rw [Function.update_of_ne mine,Function.update_of_ne mine,simulates.saved]

theorem Simulates.trap (interruptStacks : Nat → Nat) (permitted : Permitted (.trap c epc interrupt) s) : ∃ t',
    stackStep (.trap (s.current c) ((s.cpus c).trapped epc).words) t = some t' ∧
    Simulates (Cswitch.trap interruptStacks c epc interrupt s) t' := by
  obtain ⟨born,clear⟩ := permitted
  obtain ⟨stored,link,others⟩ := written (newContext c s) (s.contexts (s.current c)) ((s.cpus c).trapped epc).words s.memory
  have memory : (Cswitch.trap interruptStacks c epc interrupt s).memory =
      Function.update (storeWords (newContext c s) ((s.cpus c).trapped epc).words s.memory) (newContext c s + 132)
        (s.contexts (s.current c)) := rfl
  rw [← memory] at stored link others
  have rewritten := simulates.sound.rewrite fun u f member j small =>
    others (f.address + 4 * j) ((clear u f member).outside small)
  by_cases idle : s.current c = idleThreadTid
  · refine ⟨t,by simp only [stackStep,if_pos idle],?_,?_,simulates.initial⟩
    · simp only [Cswitch.trap,if_pos idle] at rewritten ⊢
      exact rewritten
    · simp only [Cswitch.trap,if_pos idle]
      exact simulates.saved
  · have masked : ((s.cpus c).trapped epc).words 32 &&& savedStatus = ((s.cpus c).trapped epc).words 32 := by
      show (_ &&& savedStatus) &&& savedStatus = _ &&& savedStatus
      rw [Nat.and_assoc,Nat.and_self]
    generalize (Cswitch.trap interruptStacks c epc interrupt s).memory = saving at stored link rewritten memory
    have held : Held saving ⟨newContext c s,((s.cpus c).trapped epc).words⟩ := ⟨stored,masked⟩
    have pushed := rewritten.push idle held link clear
    rw [memory] at pushed
    refine ⟨{ t with saved := Function.update t.saved (s.current c) (((s.cpus c).trapped epc).words :: t.saved (s.current c)) },
      by simp only [stackStep,if_neg idle],?_,fun u => ?_,simulates.initial⟩
    · simp only [Cswitch.trap,if_neg idle,contextSave]
      exact pushed
    · simp only [Cswitch.trap,if_neg idle]
      by_cases mine : u = s.current c
      · subst mine
        rw [Function.update_self,Function.update_self,simulates.saved]
        rfl
      · rw [Function.update_of_ne mine,Function.update_of_ne mine,simulates.saved]

/-- Each action does to the stacks what its event says. -/
theorem Simulates.step (permitted : Permitted a s) (next : Cswitch.step interruptStacks a s = some s') :
    ∃ t', run stackStep (event a s) t = some t' ∧ Simulates s' t' := by
  have single : ∀ {e}, (∃ t', stackStep e t = some t' ∧ Simulates s' t') →
      ∃ t', run stackStep [e] t = some t' ∧ Simulates s' t' := by
    rintro e ⟨t',done,later⟩
    refine ⟨t',?_,later⟩
    rw [run_cons,done]
    rfl
  cases a with
  | execute c cpu memory =>
    cases next
    exact ⟨t,rfl,simulates.sound.rewrite permitted,simulates.saved,simulates.initial⟩
  | schedule c tid =>
    cases next
    exact ⟨t,rfl,simulates.sound,simulates.saved,simulates.initial⟩
  | amend c i value => cases next; exact single (simulates.amend permitted)
  | create tid address words => cases next; exact single (simulates.create permitted)
  | resume c => cases next; exact single (simulates.resume permitted)
  | trap c epc interrupt => cases next; exact single (simulates.trap interruptStacks permitted)

end Steps

def initial (memory : Nat → Nat) (contexts : Nat → Nat) (cpus : Nat → Cpu) : System :=
  ⟨memory,contexts,cpus,fun _ => idleThreadTid,fun _ => [],fun _ => none⟩

/-- Whatever CPUs trap, switch threads and return in whatever order: each return to a thread gives
back the registers, `hi`, `lo`, the program counter and the saved bits of the status of its
last exception that has not returned, as far as its own handlers have not changed them. -/
theorem cswitch_restores (interruptStacks : Nat → Nat) (memory contexts : Nat → Nat) (cpus : Nat → Cpu)
    (words : Nat → Words) (meets : Meets (step interruptStacks) Permitted actions (initial memory contexts cpus))
    (ran : run (step interruptStacks) actions (initial memory contexts cpus) = some s) :
    ∃ t, run stackStep (traceOf (step interruptStacks) event actions (initial memory contexts cpus)) ⟨words,fun _ => []⟩ =
      some t ∧ ∀ tid, t.saved tid = (s.live tid).map Frame.words := by
  have start : Simulates (initial memory contexts cpus) ⟨words,fun _ => []⟩ := by
    have none : ∀ t, (initial memory contexts cpus).frames t = [] := fun _ => rfl
    refine ⟨⟨?_,nofun,nofun,rfl,?_,?_⟩,fun _ => rfl,nofun⟩
    · intro t f member
      exact absurd member (List.not_mem_nil)
    · intro t
      exact List.Pairwise.nil
    · intro t u _ f member
      exact absurd member (List.not_mem_nil)
  obtain ⟨t,traced,simulates⟩ := run_refines
    (fun _ _ _ _ simulates permitted next => simulates.step permitted next) start meets ran
  exact ⟨t,traced,simulates.saved⟩

def sampleWords : Words := fun i => if i.val = 26 then 900 else 0

/-- A thread is made and started, is interrupted, and goes on. -/
def sampleActions : List Action :=
  [.create 1 1000 sampleWords,.schedule 0 1,.resume 0,.trap 0 8 true,.resume 0]

def sampleSystem : System :=
  initial (fun _ => 0) (fun _ => 0) fun _ => ⟨fun _ => 0,0,0,0,0⟩

theorem cswitch_restores_sample : ∃ s t, run (step fun _ => 5000) sampleActions sampleSystem = some s ∧
    run stackStep (traceOf (step fun _ => 5000) event sampleActions sampleSystem) ⟨fun _ => sampleWords,fun _ => []⟩ = some t ∧
    ∀ tid, t.saved tid = (s.live tid).map Frame.words := by
  have meets : Meets (step fun _ => 5000) Permitted sampleActions sampleSystem := by
    refine ⟨⟨?_,by decide⟩,trivial,nofun,⟨nofun,?_⟩,nofun,trivial⟩
    · intro t _ f member
      exact absurd member (List.not_mem_nil)
    · intro t f member
      by_cases first : t = 1
      · subst first
        rw [List.mem_singleton.mp member]
        exact .inl (by decide)
      · obtain live | base := mem_framesOf.mp member
        · have none : f ∈ Function.update (Function.update (fun _ => ([] : List Frame)) 1 []) 1 [] t := live
          simp at none
        · have none : Function.update (fun _ => none) 1 (some (⟨1000,sampleWords⟩ : Frame)) t = some f := base
          rw [Function.update_of_ne first] at none
          contradiction
  obtain ⟨t,traced,saved⟩ := cswitch_restores (fun _ => 5000) (fun _ => 0) (fun _ => 0) (fun _ => ⟨fun _ => 0,0,0,0,0⟩)
    (fun _ => sampleWords) meets rfl
  exact ⟨_,t,rfl,traced,saved⟩

end Buenos.Kernel.Cswitch
