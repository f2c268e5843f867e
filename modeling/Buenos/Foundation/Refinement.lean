import Buenos.Foundation.Run

/-! Refinement between two machines: the runs of one, seen through the events that its
actions stand for, are runs of the other. -/
namespace Buenos.Foundation

variable {S A T B : Type}

/-- The events of a run; an action without an event is internal. -/
def traceOf (step : A → S → Option S) (event : A → S → List B) : List A → S → List B
  | [], _ => []
  | a :: rest, s => event a s ++ match step a s with
    | none => []
    | some t => traceOf step event rest t

variable {step : A → S → Option S} {ok : A → S → Prop} {event : A → S → List B} {astep : B → T → Option T}
  {related : S → T → Prop}

theorem traceOf_cons (rest : List A) (next : step a s = some t) :
    traceOf step event (a :: rest) s = event a s ++ traceOf step event rest t := by
  rw [traceOf,next]

theorem countP_le_traceOf {p : B → Bool} {lowers : A → Bool}
    (counted : ∀ a s t, step a s = some t → (if lowers a then 1 else 0) ≤ (event a s).countP p)
    {actions : List A} {s final : S} (ran : run step actions s = some final) :
    actions.countP lowers ≤ (traceOf step event actions s).countP p := by
  induction actions generalizing s with
  | nil => exact Nat.zero_le _
  | cons a rest ih =>
    obtain ⟨t,next,later⟩ := Option.bind_eq_some_iff.mp ran
    rw [traceOf_cons rest next,List.countP_append,List.countP_cons,Nat.add_comm]
    exact Nat.add_le_add (counted a s t next) (ih later)

theorem traceOf_forall {property : S → Prop} {ok : A → S → Prop} {wanted : B → Prop}
    (preserved : ∀ a s t, property s → ok a s → step a s = some t → property t ∧ ∀ b ∈ event a s, wanted b)
    {actions : List A} {s final : S} (initial : property s) (meets : Meets step ok actions s)
    (ran : run step actions s = some final) : ∀ b ∈ traceOf step event actions s, wanted b := by
  induction actions generalizing s with
  | nil => simp [traceOf]
  | cons a rest ih =>
    obtain ⟨t,next,later⟩ := Option.bind_eq_some_iff.mp ran
    obtain ⟨kept,here⟩ := preserved a s t initial meets.1 next
    rw [traceOf_cons rest next]
    intro b member
    rcases List.mem_append.mp member with now | then_
    · exact here b now
    · exact ih kept (meets.next next) later b then_

/-- Each action is matched by a run of the abstract machine over its events, and so is a run. -/
theorem run_refines
    (matched : ∀ a s t u, related s u → ok a s → step a s = some t → ∃ v, run astep (event a s) u = some v ∧ related t v)
    {actions : List A} {s final : S} {u : T} (initial : related s u) (meets : Meets step ok actions s)
    (ran : run step actions s = some final) :
    ∃ v, run astep (traceOf step event actions s) u = some v ∧ related final v := by
  induction actions generalizing s u with
  | nil =>
    cases ran
    exact ⟨u,rfl,initial⟩
  | cons a rest ih =>
    obtain ⟨t,next,later⟩ := Option.bind_eq_some_iff.mp ran
    obtain ⟨v,here,between⟩ := matched a s t u initial meets.1 next
    obtain ⟨w,there,after⟩ := ih between (meets.next next) later
    refine ⟨w,?_,after⟩
    rw [traceOf_cons rest next,run_append,here]
    exact there

/-- Until an event happens that `wanted` names, every action keeps `property` and does not raise
the rank; those that `lowers` names lower it. So they are at most as many as the rank. -/
theorem run_until {property : S → Prop} (rank : S → Nat) (lowers : A → Bool) (wanted : B → Prop)
    (progress : ∀ a s t, property s → ok a s → step a s = some t → (∀ b ∈ event a s, ¬wanted b) →
      property t ∧ rank t + (if lowers a then 1 else 0) ≤ rank s)
    {actions : List A} {s final : S} (initial : property s) (meets : Meets step ok actions s)
    (ran : run step actions s = some final) (many : rank s < actions.countP lowers) :
    ∃ b ∈ traceOf step event actions s, wanted b := by
  induction actions generalizing s with
  | nil => simp at many
  | cons a rest ih =>
    obtain ⟨t,next,later⟩ := Option.bind_eq_some_iff.mp ran
    rw [traceOf_cons rest next]
    by_cases now : ∃ b ∈ event a s, wanted b
    · obtain ⟨b,member,meant⟩ := now
      exact ⟨b,List.mem_append_left _ member,meant⟩
    · have none : ∀ b ∈ event a s, ¬wanted b := fun b member meant => now ⟨b,member,meant⟩
      obtain ⟨kept,lower⟩ := progress a s t initial meets.1 next none
      rw [List.countP_cons] at many
      obtain ⟨b,member,meant⟩ := ih kept (meets.next next) later (by omega)
      exact ⟨b,List.mem_append_right _ member,meant⟩

end Buenos.Foundation
