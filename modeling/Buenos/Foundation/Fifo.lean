import Buenos.Foundation.Refinement

/-! A queue that items enter at the end and leave at the front. Nothing here says who keeps it. -/
namespace Buenos.Foundation

variable {α : Type}

/-- `empty` is an attempt to take an item that finds none. -/
inductive QueueEvent (α : Type) where
  | enter (x : α)
  | leave (x : α)
  | empty

namespace QueueEvent

def takes : QueueEvent α → Bool
  | enter _ => false
  | leave _ => true
  | empty => true

def entered : QueueEvent α → Option α
  | enter x => some x
  | _ => none

def left : QueueEvent α → Option α
  | leave x => some x
  | _ => none

/-- Only the item at the front leaves, and an attempt fails only on the empty queue. -/
def apply [DecidableEq α] : QueueEvent α → List α → Option (List α)
  | enter x, q => some (q ++ [x])
  | leave x, q => if q.head? = some x then some q.tail else none
  | empty, q => if q = [] then some q else none

variable [DecidableEq α] {events : List (QueueEvent α)} {q r : List α} {x : α}

theorem leave_apply (taken : (leave x).apply q = some r) : q = x :: r := by
  rw [apply] at taken
  split at taken
  · next first =>
    cases taken
    exact (List.cons_head?_tail first).symm
  · contradiction

theorem empty_apply (taken : (empty : QueueEvent α).apply q = some r) : q = [] ∧ r = [] := by
  rw [apply] at taken
  split at taken
  · next none_ =>
    cases taken
    exact ⟨none_,none_⟩
  · contradiction

/-- What has left, followed by what still waits, is what has come in, in its order. -/
theorem run_order (ran : run apply events q = some r) :
    q ++ events.filterMap entered = events.filterMap left ++ r := by
  induction events generalizing q with
  | nil =>
    cases ran
    simp
  | cons event rest ih =>
    obtain ⟨middle,now,later⟩ := Option.bind_eq_some_iff.mp ran
    have behind := ih later
    cases event with
    | enter x =>
      cases now
      simpa [List.filterMap_cons,entered,left] using behind
    | leave x =>
      obtain rfl := leave_apply now
      simpa [List.filterMap_cons,entered,left] using behind
    | empty =>
      obtain ⟨rfl,rfl⟩ := empty_apply now
      simpa [List.filterMap_cons,entered,left] using behind

/-- An item that waits behind `pre` has left, or each attempt has taken an item of `pre`. -/
theorem run_waits {pre post : List α} (ran : run apply events (pre ++ x :: post) = some r) :
    leave x ∈ events ∨ ∃ pre' post', r = pre' ++ x :: post' ∧ pre'.length + events.countP takes = pre.length := by
  induction events generalizing pre post with
  | nil =>
    cases ran
    exact .inr ⟨pre,post,rfl,rfl⟩
  | cons event rest ih =>
    obtain ⟨middle,now,later⟩ := Option.bind_eq_some_iff.mp ran
    cases event with
    | enter y =>
      cases now
      rw [List.append_assoc] at later
      rcases ih later with gone | ⟨pre',post',stays,count⟩
      · exact .inl (List.mem_cons_of_mem _ gone)
      · exact .inr ⟨pre',post',stays,by simpa [List.countP_cons,takes] using count⟩
    | leave y =>
      have front := leave_apply now
      cases pre with
      | nil =>
        cases front
        exact .inl List.mem_cons_self
      | cons z pre =>
        cases front
        rcases ih later with gone | ⟨pre',post',stays,count⟩
        · exact .inl (List.mem_cons_of_mem _ gone)
        · refine .inr ⟨pre',post',stays,?_⟩
          simp only [List.countP_cons,takes,if_true,List.length_cons]
          omega
    | empty =>
      have none_ := (empty_apply now).1
      simp at none_

/-- It leaves with the attempt after `pre`. -/
theorem run_leaves {pre post : List α} (ran : run apply events (pre ++ x :: post) = some r)
    (many : pre.length < events.countP takes) : leave x ∈ events := by
  rcases run_waits ran with gone | ⟨pre',post',-,count⟩
  · exact gone
  · omega

end QueueEvent

end Buenos.Foundation
