import Buenos.Foundation.Run
import Buenos.Foundation.Threads

/-! A semaphore as its users see it: a number that is lowered at once, and only where it is
positive. Nothing here says how it is kept. -/
namespace Buenos.Foundation

/-- `take` is a call that got through; both name the thread that made the call. -/
inductive CounterEvent where
  | take (t : Nat)
  | give (t : Nat)
  deriving DecidableEq

namespace CounterEvent

def takes : CounterEvent → Bool
  | take _ => true
  | give _ => false

def apply : CounterEvent → Nat → Option Nat
  | take _, n => if 0 < n then some (n - 1) else none
  | give _, n => some (n + 1)

/-- The threads that have taken a unit and not given it back. -/
def holders : List CounterEvent → (Nat → Bool) → Nat → Bool
  | [], holds => holds
  | take t :: rest, holds => holders rest (Function.update holds t true)
  | give t :: rest, holds => holders rest (Function.update holds t false)

/-- Only a holder gives. -/
def Disciplined : List CounterEvent → (Nat → Bool) → Prop
  | [], _ => True
  | take t :: rest, holds => Disciplined rest (Function.update holds t true)
  | give t :: rest, holds => holds t = true ∧ Disciplined rest (Function.update holds t false)

/-- With a single unit, at most one thread is a holder. -/
theorem run_exclusive {events : List CounterEvent} {n m : Nat} {holds : Nat → Bool} (exclusive : Exclusive n holds)
    (disciplined : Disciplined events holds) (ran : run apply events n = some m) : Exclusive m (holders events holds) := by
  induction events generalizing n holds with
  | nil =>
    cases ran
    exact exclusive
  | cons event rest ih =>
    obtain ⟨middle,now,later⟩ := Option.bind_eq_some_iff.mp ran
    cases event with
    | take t =>
      rw [apply] at now
      split at now
      · next free =>
        cases now
        have others : ∀ u, u ≠ t → Function.update holds t true u = holds u := fun u apart => Function.update_of_ne apart _ _
        exact ih (exclusive.acquire free others) disciplined later
      · contradiction
    | give t =>
      cases now
      have others : ∀ u, u ≠ t → Function.update holds t false u = holds u := fun u apart => Function.update_of_ne apart _ _
      exact ih (exclusive.release disciplined.1 (Function.update_self _ _ _) others) disciplined.2 later

end CounterEvent

end Buenos.Foundation
