import Mathlib.Data.List.Basic

/-! Finite runs of a partial step function. A run is a list of dispatched actions;
`none` means that some action was not enabled when it was dispatched. Nothing here
names a particular machine. -/
namespace Buenos.Foundation

variable {S A : Type}

/-- Dispatch the actions in order. -/
def run (step : A → S → Option S) : List A → S → Option S
  | [], s => some s
  | a :: rest, s => (step a s).bind (run step rest)

/-- Every dispatched action meets `ok` in the state in which it is dispatched. -/
def Meets (step : A → S → Option S) (ok : A → S → Prop) : List A → S → Prop
  | [], _ => True
  | a :: rest, s => ok a s ∧ match step a s with
    | none => True
    | some t => Meets step ok rest t

instance Meets.decidable (step : A → S → Option S) (ok : A → S → Prop)
    [∀ a s, Decidable (ok a s)] : ∀ actions s, Decidable (Meets step ok actions s)
  | [], _ => isTrue trivial
  | a :: rest, s =>
    have : Decidable (match step a s with
        | none => True
        | some t => Meets step ok rest t) :=
      match step a s with
      | none => isTrue trivial
      | some t => Meets.decidable step ok rest t
    inferInstanceAs (Decidable (_ ∧ _))

variable {step : A → S → Option S} {ok : A → S → Prop} {property : S → Prop}

@[simp] theorem run_nil (s : S) : run step [] s = some s := rfl

@[simp] theorem run_cons (a : A) (rest : List A) (s : S) :
    run step (a :: rest) s = (step a s).bind (run step rest) := rfl

theorem Meets.next (meets : Meets step ok (a :: rest) s) (next : step a s = some t) :
    Meets step ok rest t := by
  have later := meets.2
  rwa [next] at later

theorem meets_cons (now : ok a s) (next : step a s = some t) (later : Meets step ok rest t) :
    Meets step ok (a :: rest) s := by
  refine ⟨now,?_⟩
  rw [next]
  exact later

theorem Meets.and {other : A → S → Prop} (first : Meets step ok actions s)
    (second : Meets step other actions s) : Meets step (fun a s => ok a s ∧ other a s) actions s := by
  induction actions generalizing s with
  | nil => trivial
  | cons a rest ih =>
    refine ⟨⟨first.1,second.1⟩,?_⟩
    split
    · trivial
    · next t next => exact ih (first.next next) (second.next next)

theorem meets_of_forall {ok : A → Prop} {actions : List A} {s : S} (all : ∀ a ∈ actions, ok a) :
    Meets step (fun a _ => ok a) actions s := by
  induction actions generalizing s with
  | nil => trivial
  | cons a rest ih =>
    refine ⟨all a List.mem_cons_self,?_⟩
    split
    · trivial
    · exact ih fun b member => all b (List.mem_cons_of_mem a member)

theorem run_append (first second : List A) (s : S) :
    run step (first ++ second) s = (run step first s).bind (run step second) := by
  induction first generalizing s with
  | nil => rfl
  | cons a rest ih =>
    cases next : step a s with
    | none => simp [next]
    | some t => simpa [next] using ih t

/-- A property kept by every enabled action holds at the end of every run. -/
theorem run_invariant (preserved : ∀ a s t, property s → step a s = some t → property t)
    {actions : List A} {s final : S} (initial : property s)
    (ran : run step actions s = some final) : property final := by
  induction actions generalizing s with
  | nil => cases ran; exact initial
  | cons a rest ih =>
    obtain ⟨t,next,later⟩ := Option.bind_eq_some_iff.mp ran
    exact ih (preserved a s t initial next) later

/-- The guarded form: `ok` is assumed of each action where it is dispatched. -/
theorem run_guarded (preserved : ∀ a s t, property s → ok a s → step a s = some t → property t)
    {actions : List A} {s final : S} (initial : property s) (meets : Meets step ok actions s)
    (ran : run step actions s = some final) : property final := by
  induction actions generalizing s with
  | nil => cases ran; exact initial
  | cons a rest ih =>
    obtain ⟨t,next,later⟩ := Option.bind_eq_some_iff.mp ran
    exact ih (preserved a s t initial meets.1 next) (meets.next next) later

/-- The form with a history: the property may speak of the actions so far. -/
theorem run_history {property : List A → S → Prop}
    (preserved : ∀ past a s t, property past s → ok a s → step a s = some t → property (past ++ [a]) t)
    {actions : List A} {s final : S} (initial : property [] s) (meets : Meets step ok actions s)
    (ran : run step actions s = some final) : property actions final := by
  have from_ : ∀ past, property past s → property (past ++ actions) final := by
    clear initial
    induction actions generalizing s with
    | nil =>
      intro past holds
      cases ran
      simpa using holds
    | cons a rest ih =>
      intro past holds
      obtain ⟨t,next,later⟩ := Option.bind_eq_some_iff.mp ran
      have extended := ih (meets.next next) later (past ++ [a]) (preserved past a s t holds meets.1 next)
      simpa using extended
  simpa using from_ [] initial

/-- Guards that agree on the states that the first of them keeps to are the same guard of a run. -/
theorem meets_iff {other : A → S → Prop} (agree : ∀ a s, property s → (ok a s ↔ other a s))
    (preserved : ∀ a s t, property s → ok a s → step a s = some t → property t)
    {actions : List A} {s : S} (initial : property s) : Meets step ok actions s ↔ Meets step other actions s := by
  induction actions generalizing s with
  | nil => exact Iff.rfl
  | cons a rest ih =>
    rw [Meets,Meets,agree a s initial]
    apply and_congr_right
    intro now
    cases next : step a s with
    | none => exact Iff.rfl
    | some t => exact ih (preserved a s t initial ((agree a s initial).mpr now) next)

/-- The exact form: the actions meet `ok` just when all states of the run are good. -/
theorem run_exact {good : S → Prop} (enough : ∀ s, property s → good s)
    (exact_ : ∀ a s t, property s → step a s = some t → (ok a s → property t) ∧ (good t → ok a s))
    {actions : List A} {s final : S} (initial : property s) (ran : run step actions s = some final) :
    Meets step ok actions s ↔ ∀ n t, run step (actions.take n) s = some t → good t := by
  induction actions generalizing s with
  | nil =>
    refine ⟨fun _ n t there => ?_,fun _ => trivial⟩
    rw [List.take_nil] at there
    cases there
    exact enough s initial
  | cons a rest ih =>
    obtain ⟨t,next,later⟩ := Option.bind_eq_some_iff.mp ran
    have keeps := exact_ a s t initial next
    constructor
    · intro meets n u there
      cases n with
      | zero =>
        cases there
        exact enough s initial
      | succ n =>
        rw [List.take_succ_cons,run_cons,next] at there
        exact (ih (keeps.1 meets.1) later).mp (meets.next next) n u there
    · intro all
      have now := keeps.2 (all 1 t (by simp [next]))
      apply meets_cons now next
      apply (ih (keeps.1 now) later).mpr
      intro n u there
      apply all (n + 1)
      simp only [List.take_succ_cons,run_cons,next]
      exact there

end Buenos.Foundation
