import Buenos.Foundation.Run
import Mathlib.Logic.Function.Basic

/-! Threads over one shared state. A thread is its remaining program: a tree whose
nodes are the steps the scheduler can see. `σ` is the shared state, `ε` the calls that
leave the modelled code and `π` the assertions it makes. -/
namespace Buenos.Foundation

/-- `act` waits until it is `ready`, changes the shared state at once and goes on
according to the state it found. `call` hands over to other code and `await` resumes
with whatever that code returns. -/
inductive Prog (σ ε π : Type) where
  | ret (code : Int)
  | panic (assertion : π)
  | act (ready : σ → Bool) (effect : σ → σ) (next : σ → Prog σ ε π)
  | call (e : ε) (next : Int → Prog σ ε π)
  | await (next : Int → Prog σ ε π)

variable {σ ε π O L : Type}

/-- One step of one program; `invoke` is the effect of handing over, `result` what the
awaited code returns. -/
def advance (invoke : ε → σ → σ) (result : Int) : Prog σ ε π → σ → Option (σ × Prog σ ε π)
  | .act ready effect next, s => if ready s then some (effect s, next s) else none
  | .call e next, s => some (invoke e s, .await next)
  | .await next, s => some (s, next result)
  | .ret _, _ => none
  | .panic _, _ => none

/-- The program alone, from its start to its return; `answer` is what the code it hands
over to returns. `none` if it stops before an assertion or waits for another thread. -/
def execute (invoke : ε → σ → σ) (answer : ε → Int) : Prog σ ε π → σ → Option (Int × σ)
  | .ret code, s => some (code, s)
  | .panic _, _ => none
  | .act ready effect next, s => if ready s then execute invoke answer (next s) (effect s) else none
  | .call e next, s => execute invoke answer (next (answer e)) (invoke e s)
  | .await _, _ => none

structure Config (σ ε π : Type) where
  shared : σ
  threads : Nat → Prog σ ε π

/-- A thread that has returned starts an operation, or a thread takes a step. -/
inductive Move (O : Type) where
  | start (t : Nat) (op : O)
  | step (t : Nat) (result : Int)

def idle : Prog σ ε π → Bool
  | .ret _ => true
  | _ => false

/-- `enter` is the effect of a start, `none` when the operation may not be started. -/
def move (invoke : ε → σ → σ) (enter : Nat → O → σ → Option σ) (program : Nat → O → Prog σ ε π) :
    Move O → Config σ ε π → Option (Config σ ε π)
  | .start t op, c =>
    if idle (c.threads t) then
      (enter t op c.shared).map fun s => ⟨s, Function.update c.threads t (program t op)⟩
    else none
  | .step t result, c =>
    (advance invoke result (c.threads t) c.shared).map fun next =>
      ⟨next.1, Function.update c.threads t next.2⟩

variable {invoke : ε → σ → σ} {enter : Nat → O → σ → Option σ} {program : Nat → O → Prog σ ε π}

/-- Each thread's program is typed at its local state, and the local states together
fit the shared state. -/
def Modular (fits : σ → (Nat → L) → Prop) (typed : Nat → L → Prog σ ε π → Prop)
    (c : Config σ ε π) : Prop :=
  ∃ locals, fits c.shared locals ∧ ∀ t, typed t (locals t) (c.threads t)

/-- Thread-modular preservation: it suffices that every step of one program finds a new
local state for that thread alone. -/
theorem Modular.move {fits : σ → (Nat → L) → Prop} {typed : Nat → L → Prog σ ε π → Prop}
    {m : Move O} {c d : Config σ ε π} (modular : Modular fits typed c)
    (starts : ∀ locals t op s, m = .start t op → fits c.shared locals → idle (c.threads t) = true →
      typed t (locals t) (c.threads t) → enter t op c.shared = some s →
      ∃ l, fits s (Function.update locals t l) ∧ typed t l (program t op))
    (steps : ∀ locals t result s next, m = .step t result → fits c.shared locals →
      typed t (locals t) (c.threads t) →
      advance invoke result (c.threads t) c.shared = some (s, next) →
      ∃ l, fits s (Function.update locals t l) ∧ typed t l next)
    (moved : move invoke enter program m c = some d) : Modular fits typed d := by
  obtain ⟨locals,fit,types⟩ := modular
  have others : ∀ t l next, typed t l next →
      ∀ u, typed u (Function.update locals t l u) (Function.update c.threads t next u) := by
    intro t l next type u
    by_cases same : u = t
    · subst same; simpa using type
    · simpa [same] using types u
  cases m with
  | start t op =>
    simp only [Foundation.move] at moved
    split at moved
    · next rest =>
      obtain ⟨s,entered,rfl⟩ := Option.map_eq_some_iff.mp moved
      obtain ⟨l,fit,type⟩ := starts locals t op s rfl fit rest (types t) entered
      exact ⟨_,fit,others t l _ type⟩
    · contradiction
  | step t result =>
    obtain ⟨⟨s,next⟩,advanced,rfl⟩ := Option.map_eq_some_iff.mp moved
    obtain ⟨l,fit,type⟩ := steps locals t result s next rfl fit (types t) advanced
    exact ⟨_,fit,others t l _ type⟩

/-! ### Safety of calls -/

section Safe
variable (invoke : ε → σ → σ) (fits : σ → (Nat → L) → Prop) (legal may : ε → σ → Prop) (rest : L → Prop)

/-- From local state `l` on, each step of the program finds a local state that fits again,
and each call is `legal` where it is made. A call that `may` not be made is not followed. -/
def Safe (me : Nat) : L → Prog σ ε π → Prop
  | l, .ret _ => rest l
  | _, .panic _ => True
  | l, .act ready effect next => ∀ s locals, fits s locals → locals me = l → ready s = true →
      ∃ l', fits (effect s) (Function.update locals me l') ∧ Safe me l' (next s)
  | l, .call e next => ∀ s locals, fits s locals → locals me = l → legal e s ∧ (may e s →
      ∃ l', fits (invoke e s) (Function.update locals me l') ∧ ∀ r, Safe me l' (next r))
  | l, .await next => ∀ r, Safe me l (next r)

variable {invoke fits legal may rest}

theorem Safe.advance (safe : Safe invoke fits legal may rest me l prog) (fit : fits s locals)
    (at_ : locals me = l) (allowed : ∀ e next, prog = .call e next → may e s)
    (advanced : Foundation.advance invoke result prog s = some (s', next)) :
    ∃ l', fits s' (Function.update locals me l') ∧ Safe invoke fits legal may rest me l' next := by
  cases prog with
  | ret => contradiction
  | panic => contradiction
  | act ready effect later =>
    simp only [Foundation.advance] at advanced
    split at advanced
    · next enabled => cases advanced; exact safe s locals fit at_ enabled
    · contradiction
  | call e later => cases advanced; exact (safe s locals fit at_).2 (allowed e later rfl)
  | await later =>
    cases advanced
    exact ⟨l,by rwa [← at_,Function.update_eq_self],safe result⟩

/-- A thread that stands before a call makes it legally. -/
theorem Modular.call_legal (modular : Modular fits (Safe invoke fits legal may rest) c)
    (at_ : c.threads t = .call e next) : legal e c.shared := by
  obtain ⟨locals,fit,safe⟩ := modular
  have here := safe t
  rw [at_] at here
  exact (here c.shared locals fit rfl).1

end Safe

/-! ### Binary semaphores -/

/-- A unit of the semaphore is free or held by one thread. -/
structure Exclusive (value : Nat) (holds : Nat → Bool) : Prop where
  binary : value ≤ 1
  taken : ∀ t, holds t = true → value = 0
  alone : ∀ t u, holds t = true → holds u = true → t = u

theorem Exclusive.congr (exclusive : Exclusive value holds) (same : ∀ u, holds' u = holds u) :
    Exclusive value holds' := by
  rwa [show holds' = holds from funext same]

theorem Exclusive.acquire (exclusive : Exclusive value holds) (free : 0 < value)
    (others : ∀ u, u ≠ t → holds' u = holds u) : Exclusive (value - 1) holds' := by
  have nobody : ∀ u, u ≠ t → holds' u = false := by
    intro u apart
    rw [others u apart]
    by_contra held
    have := exclusive.taken u (by simpa using held)
    omega
  have mine : ∀ u, holds' u = true → u = t := by
    intro u held
    by_contra apart
    simp [nobody u apart] at held
  refine ⟨by have := exclusive.binary; omega,?_,?_⟩
  · intro u _
    have := exclusive.binary
    omega
  · intro u v first second
    rw [mine u first,mine v second]

theorem Exclusive.release (exclusive : Exclusive value holds) (held : holds t = true)
    (dropped : holds' t = false) (others : ∀ u, u ≠ t → holds' u = holds u) :
    Exclusive (value + 1) holds' := by
  have nobody : ∀ u, holds' u = false := by
    intro u
    by_cases same : u = t
    · rw [same,dropped]
    · rw [others u same]
      by_contra other
      exact same (exclusive.alone u t (by simpa using other) held)
  refine ⟨by simp [exclusive.taken t held],?_,?_⟩ <;> simp [nobody]

/-- A semaphore that is taken just when some thread holds it. -/
structure Mutex (value : Nat) (holds : Nat → Bool) : Prop extends Exclusive value holds where
  owner : value = 0 → ∃ t, holds t = true

theorem Mutex.congr (mutex : Mutex value holds) (same : ∀ u, holds' u = holds u) : Mutex value holds' := by
  rwa [show holds' = holds from funext same]

theorem Mutex.acquire (mutex : Mutex value holds) (free : 0 < value) (mine : holds' t = true)
    (others : ∀ u, u ≠ t → holds' u = holds u) : Mutex (value - 1) holds' :=
  ⟨mutex.toExclusive.acquire free others,fun _ => ⟨t,mine⟩⟩

theorem Mutex.release (mutex : Mutex value holds) (held : holds t = true) (dropped : holds' t = false)
    (others : ∀ u, u ≠ t → holds' u = holds u) : Mutex (value + 1) holds' :=
  ⟨mutex.toExclusive.release held dropped others,fun taken => absurd taken (Nat.succ_ne_zero value)⟩

end Buenos.Foundation
