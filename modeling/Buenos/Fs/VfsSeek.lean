import Buenos.Fs.TfsRun
import Mathlib.Algebra.BigOperators.Group.Finset.Basic
import Mathlib.Data.Fintype.BigOperators

/-! Several threads on one open file. `vfs_read` and `vfs_write` read the position without a
lock, call the driver, and advance the position under the lock of the open-file table. -/
namespace Buenos.Fs.Seek

open Buenos.Foundation Buenos.Fs.Tfs

inductive Op where
  | transfer (write : Bool) (buffer : Nat) (size : Int)
  | seek (seekPosition : Int)
  deriving DecidableEq

/-- Where a thread is: not in a call, past the read of the position, or past the driver. -/
inductive Phase where
  | idle
  | fetched (write : Bool) (buffer : Nat) (size position : Int)
  | moved (write : Bool) (buffer : Nat) (size ret : Int)

abbrev Driver (n : Nat) (D : Type) := Fin n → Bool → Nat → Int → Int → D → Int × D

/-- A call that returned, or one that is as good as done. -/
structure Entry (n : Nat) where
  thread : Fin n
  op : Op
  ret : Int

/-- The open file. `returned` is what each thread has got from its calls; `order`, not read by
the code, has the calls in the order of their driver steps and seeks. -/
structure OpenFile (n : Nat) (D : Type) where
  position : Int
  driver : D
  phase : Fin n → Phase
  returned : Fin n → List (Op × Int)
  order : List (Entry n)

inductive Action (n : Nat) where
  | fetch (t : Fin n) (write : Bool) (buffer : Nat) (size : Int)
  | call (t : Fin n)
  | finish (t : Fin n)
  | seek (t : Fin n) (seekPosition : Int)

section Steps
variable {n : Nat} {D : Type} (driver : Driver n D)

def OpenFile.setPhase (s : OpenFile n D) (t : Fin n) (p : Phase) : OpenFile n D :=
  { s with phase := Function.update s.phase t p }

def OpenFile.return (s : OpenFile n D) (t : Fin n) (op : Op) (ret : Int) : OpenFile n D :=
  { s with returned := Function.update s.returned t (s.returned t ++ [(op, ret)]) }

def OpenFile.record (s : OpenFile n D) (t : Fin n) (op : Op) (ret : Int) : OpenFile n D :=
  { s with order := s.order ++ [⟨t, op, ret⟩] }

/-- `if(ret > 0) seek_position += ret;` -/
def advance (position ret : Int) : Int := if 0 < ret then position + ret else position

/-- One step of a thread; `none` where it is not at such a step or an assertion fails. -/
def step (a : Action n) (s : OpenFile n D) : Option (OpenFile n D) :=
  match a with
  | .fetch t write buffer size =>
    match s.phase t with
    | .idle => if size < 0 then none else some (s.setPhase t (.fetched write buffer size s.position))
    | _ => none
  | .call t =>
    match s.phase t with
    | .fetched write buffer size position =>
      let r := driver t write buffer size position s.driver
      some (({ s with driver := r.2 }.setPhase t (.moved write buffer size r.1)).record t (.transfer write buffer size) r.1)
    | _ => none
  | .finish t =>
    match s.phase t with
    | .moved write buffer size ret =>
      some (({ s with position := advance s.position ret }.setPhase t .idle).return t (.transfer write buffer size) ret)
    | _ => none
  | .seek t seekPosition =>
    match s.phase t with
    | .idle =>
      if seekPosition < 0 then none
      else some (({ s with position := seekPosition }.record t (.seek seekPosition) vfsOk).return t
        (.seek seekPosition) vfsOk)
    | _ => none

/-- The calls one after the other; `none` where one would have returned something else. -/
def replay : List (Entry n) → Int × D → Option (Int × D)
  | [], state => some state
  | e :: rest, (position, d) =>
    match e.op with
    | .seek seekPosition => if e.ret = vfsOk then replay rest (seekPosition, d) else none
    | .transfer write buffer size =>
      let r := driver e.thread write buffer size position d
      if r.1 = e.ret then replay rest (advance position r.1, r.2) else none

def callsOf (t : Fin n) (order : List (Entry n)) : List (Op × Int) :=
  (order.filter fun e => e.thread = t).map fun e => (e.op, e.ret)

/-- Some sequential order of the threads' calls gives the same results, the same final position
and the same bytes. -/
def Serializable (initial : Int × D) (s : OpenFile n D) : Prop :=
  ∃ order : List (Entry n), (∀ t, callsOf t order = s.returned t) ∧
    replay driver order initial = some (s.position, s.driver)

/-- What a thread in this phase will still add to the position. -/
def Phase.due : Phase → Int
  | .moved _ _ _ ret => if 0 < ret then ret else 0
  | _ => 0

def due (s : OpenFile n D) : Int := s.position + ∑ t, (s.phase t).due

/-- The driver is called with the current position, counting the advances that are due, and a
seek does not come between a transfer and its advance. -/
def Current (a : Action n) (s : OpenFile n D) : Prop :=
  match a with
  | .call t => ∀ write buffer size position, s.phase t = .fetched write buffer size position → position = due s
  | .seek _ _ => ∀ t, (s.phase t).due = 0
  | _ => True

end Steps

/-! ### The order of the driver steps and seeks -/

section Order
variable {n : Nat} {D : Type} {driver : Driver n D} {initial : Int × D} {s t : OpenFile n D}

theorem replay_append (first second : List (Entry n)) (state : Int × D) :
    replay driver (first ++ second) state = (replay driver first state).bind (replay driver second) := by
  induction first generalizing state with
  | nil => rfl
  | cons e rest ih =>
    obtain ⟨position,d⟩ := state
    rw [List.cons_append,replay,replay]
    cases e.op with
    | seek seekPosition =>
      dsimp only
      split
      · exact ih _
      · rfl
    | transfer write buffer size =>
      dsimp only
      split
      · exact ih _
      · rfl

theorem callsOf_append (u : Fin n) (order : List (Entry n)) (e : Entry n) :
    callsOf u (order ++ [e]) = callsOf u order ++ if e.thread = u then [(e.op, e.ret)] else [] := by
  unfold callsOf
  rw [List.filter_append,List.map_append]
  by_cases mine : e.thread = u
  · simp [mine]
  · simp [mine]

theorem sum_due_update (phase : Fin n → Phase) (u : Fin n) (p : Phase) :
    ∑ v, (Function.update phase u p v).due = ∑ v, (phase v).due - (phase u).due + p.due := by
  have composed : (fun v => (Function.update phase u p v).due) = Function.update (fun v => (phase v).due) u p.due := by
    funext v
    by_cases same : v = u
    · subst same; simp
    · simp [Function.update_of_ne same]
  have split := Finset.sum_eq_sum_sdiff_singleton_add (Finset.mem_univ u) fun v => (phase v).due
  rw [composed,Finset.sum_update_of_mem (Finset.mem_univ u)]
  omega

def Phase.pending : Phase → List (Op × Int)
  | .moved write buffer size ret => [(.transfer write buffer size, ret)]
  | _ => []

/-- The recorded order explains everything that has happened. -/
structure Explained (driver : Driver n D) (initial : Int × D) (s : OpenFile n D) : Prop where
  replayed : replay driver s.order initial = some (due s, s.driver)
  calls : ∀ u, callsOf u s.order = s.returned u ++ (s.phase u).pending

theorem Explained.fetch (explained : Explained driver initial s) (idle : s.phase u = .idle) :
    Explained driver initial (s.setPhase u (.fetched write buffer size s.position)) := by
  refine ⟨?_,fun v => ?_⟩
  · have same : due (s.setPhase u (.fetched write buffer size s.position)) = due s := by
      unfold due OpenFile.setPhase
      rw [sum_due_update,idle]
      simp [Phase.due]
    rw [same]
    exact explained.replayed
  · by_cases mine : v = u
    · subst mine
      have calls := explained.calls v
      rw [idle] at calls
      simpa [OpenFile.setPhase,Phase.pending] using calls
    · simpa [OpenFile.setPhase,Function.update_of_ne mine] using explained.calls v

theorem advance_eq (position ret : Int) : advance position ret = position + if 0 < ret then ret else 0 := by
  unfold advance
  split <;> omega

theorem Explained.call (explained : Explained driver initial s) (fetched : s.phase u = .fetched write buffer size (due s))
    (next : step driver (.call u) s = some t) : Explained driver initial t := by
  obtain ⟨ret,d,result⟩ : ∃ ret d, driver u write buffer size (due s) s.driver = (ret, d) := ⟨_,_,rfl⟩
  simp only [step,fetched,result,Option.some.injEq] at next
  subst next
  refine ⟨?_,fun v => ?_⟩
  · have total : due ({ s with driver := d }.setPhase u (.moved write buffer size ret)) = advance (due s) ret := by
      unfold OpenFile.setPhase
      rw [due,sum_due_update,fetched,advance_eq,due]
      simp only [Phase.due]
      omega
    have last : replay driver (s.order ++ [⟨u, .transfer write buffer size, ret⟩]) initial =
        some (advance (due s) ret, d) := by
      rw [replay_append,explained.replayed,Option.bind_some]
      simp [replay,result]
    rw [← total] at last
    exact last
  · have calls := explained.calls v
    simp only [OpenFile.record,OpenFile.setPhase]
    rw [callsOf_append,calls]
    by_cases mine : v = u
    · subst mine
      simp [fetched,Phase.pending]
    · simp [Function.update_of_ne mine,Ne.symm mine]

theorem Explained.finish (explained : Explained driver initial s) (next : step driver (.finish u) s = some t) :
    Explained driver initial t := by
  simp only [step] at next
  split at next
  swap
  · cases next
  next write buffer size ret moved =>
  cases next
  refine ⟨?_,fun v => ?_⟩
  · have same : advance s.position ret + (∑ v, (s.phase v).due - (s.phase u).due + Phase.idle.due) = due s := by
      rw [moved,advance_eq,due]
      simp only [Phase.due]
      omega
    simp only [OpenFile.return,OpenFile.setPhase,due]
    rw [sum_due_update,same]
    exact explained.replayed
  · have calls := explained.calls v
    simp only [OpenFile.return,OpenFile.setPhase]
    by_cases mine : v = u
    · subst mine
      rw [moved] at calls
      simp [calls,Phase.pending]
    · simp [Function.update_of_ne mine,calls]

theorem Explained.seek (explained : Explained driver initial s) (none : ∀ v, (s.phase v).due = 0)
    (next : step driver (.seek u seekPosition) s = some t) : Explained driver initial t := by
  simp only [step] at next
  split at next
  swap
  · cases next
  next idle =>
  split at next
  · cases next
  cases next
  refine ⟨?_,fun v => ?_⟩
  · simp only [OpenFile.return,OpenFile.record,due]
    rw [replay_append,explained.replayed,Finset.sum_eq_zero fun v _ => none v,add_zero]
    rfl
  · have calls := explained.calls v
    simp only [OpenFile.return,OpenFile.record]
    rw [callsOf_append,calls]
    by_cases mine : v = u
    · subst mine
      simp [idle,Phase.pending]
    · simp [Function.update_of_ne mine,Ne.symm mine]

theorem Explained.step (explained : Explained driver initial s) (current : Current a s)
    (next : step driver a s = some t) : Explained driver initial t := by
  cases a with
  | fetch u write buffer size =>
    simp only [Seek.step] at next
    split at next
    · next idle =>
      split at next
      · cases next
      · cases next; exact explained.fetch idle
    · cases next
  | call u =>
    cases phase : s.phase u with
    | idle => simp [Seek.step,phase] at next
    | moved write buffer size ret => simp [Seek.step,phase] at next
    | fetched write buffer size position =>
      have now := current write buffer size position phase
      subst now
      exact explained.call phase next
  | finish u => exact explained.finish next
  | seek u seekPosition => exact explained.seek current next

end Order

/-- A run whose driver calls start from the current position, and whose seeks do not come between
a transfer and its advance, has the results of the calls made one after the other. -/
theorem position_serializable {n : Nat} {D : Type} (driver : Driver n D) {s final : OpenFile n D}
    (idle : ∀ t, s.phase t = .idle) (fresh : ∀ t, s.returned t = []) (none : s.order = [])
    {actions : List (Action n)} (meets : Meets (step driver) Current actions s) (ran : run (step driver) actions s = some final)
    (ended : ∀ t, final.phase t = .idle) : Serializable driver (s.position, s.driver) final := by
  have zero : ∀ f : OpenFile n D, (∀ t, f.phase t = .idle) → due f = f.position := by
    intro f quiet
    rw [due,Finset.sum_eq_zero fun t _ => by rw [quiet t]; rfl,add_zero]
  have initial : Explained driver (s.position, s.driver) s := by
    refine ⟨?_,fun t => ?_⟩
    · rw [none,zero s idle]
      rfl
    · rw [none,fresh,idle]
      rfl
  have explained := run_guarded (fun a s t explained current next => explained.step current next) initial meets ran
  refine ⟨final.order,fun t => ?_,?_⟩
  · rw [explained.calls t,ended t]
    exact List.append_nil _
  · rw [explained.replayed,zero final ended]

/-! ### On TFS -/

/-- The volume, and the memory of each thread. -/
structure Storage (n : Nat) where
  machine : Machine
  user : Fin n → Bytes

def tfsDriver (g : Gbd) (fileid : Int) (n : Nat) : Driver n (Storage n) := fun t write buffer size position d =>
  let m := { d.machine with user := d.user t }
  let r := if write then tfsWrite g fileid buffer size position m else tfsRead g fileid buffer size position m
  (r.1, ⟨r.2,Function.update d.user t r.2.user⟩)

/-- A file of 600 bytes, open in two threads. -/
def sampleOpenFile : OpenFile 2 (Storage 2) :=
  ⟨0,⟨sampleFile,fun _ _ => 0⟩,fun _ => .idle,fun _ => [],[]⟩

def readAll : Op := .transfer false 0 600

def inTurn : List (Action 2) :=
  [.fetch 0 false 0 600,.call 0,.finish 0,.fetch 1 false 0 600,.call 1,.finish 1]

def overlapping : List (Action 2) :=
  [.fetch 0 false 0 600,.fetch 1 false 0 600,.call 0,.call 1,.finish 0,.finish 1]

def endsWith (first second position : Int) (s : OpenFile 2 (Storage 2)) : Bool :=
  s.returned 0 == [(readAll, first)] && s.returned 1 == [(readAll, second)] && s.position == position &&
    (match s.phase 0, s.phase 1 with | .idle, .idle => true | _, _ => false)

instance Current.decidable {n : Nat} {D : Type} (a : Action n) (s : OpenFile n D) : Decidable (Current a s) :=
  match a with
  | .fetch _ _ _ _ => isTrue trivial
  | .finish _ => isTrue trivial
  | .seek _ _ => inferInstanceAs (Decidable (∀ t, (s.phase t).due = 0))
  | .call t =>
    match phase : s.phase t with
    | .idle => isTrue fun _ _ _ _ other => by rw [phase] at other; cases other
    | .moved _ _ _ _ => isTrue fun _ _ _ _ other => by rw [phase] at other; cases other
    | .fetched write buffer size position =>
      decidable_of_iff (position = due s)
        ⟨fun same _ _ _ _ other => by rw [phase] at other; cases other; exact same,
          fun current => current write buffer size position phase⟩

theorem endsWith_spec (ends : endsWith first second position s = true) :
    s.returned 0 = [(readAll, first)] ∧ s.returned 1 = [(readAll, second)] ∧ ∀ t, s.phase t = .idle := by
  simp only [endsWith,Bool.and_eq_true,beq_iff_eq] at ends
  obtain ⟨⟨⟨zero,one⟩,_⟩,quiet⟩ := ends
  refine ⟨zero,one,fun t => ?_⟩
  split at quiet
  · next idle waiting =>
    match t with
    | 0 => exact idle
    | 1 => exact waiting
  · contradiction

theorem position_serializable_sample : ∃ final,
    run (step (tfsDriver sampleGbd 3 2)) inTurn sampleOpenFile = some final ∧
    Serializable (tfsDriver sampleGbd 3 2) (0, sampleOpenFile.driver) final := by
  have ran : (run (step (tfsDriver sampleGbd 3 2)) inTurn sampleOpenFile).any (endsWith 600 0 600) = true := by
    decide +kernel
  have meets : Meets (step (tfsDriver sampleGbd 3 2)) Current inTurn sampleOpenFile := by decide +kernel
  obtain ⟨final,ran,ends⟩ := (Option.any_eq_true _ _).mp ran
  obtain ⟨_,_,quiet⟩ := endsWith_spec ends
  exact ⟨final,ran,position_serializable (tfsDriver sampleGbd 3 2) (fun _ => rfl) (fun _ => rfl) rfl meets ran quiet⟩

theorem length_callsOf (order : List (Entry 2)) :
    (callsOf 0 order).length + (callsOf 1 order).length = order.length := by
  induction order with
  | nil => rfl
  | cons e rest ih =>
    simp only [callsOf,List.length_map,List.length_cons,List.filter_cons] at ih ⊢
    match thread : e.thread with
    | 0 => simp; omega
    | 1 => simp; omega

/-- One call of each of two threads: either of them is the first. -/
theorem two_calls {order : List (Entry 2)} (zero : callsOf 0 order = [a]) (one : callsOf 1 order = [b]) :
    order = [⟨0, a.1, a.2⟩, ⟨1, b.1, b.2⟩] ∨ order = [⟨1, b.1, b.2⟩, ⟨0, a.1, a.2⟩] := by
  have length := length_callsOf order
  rw [zero,one] at length
  obtain ⟨⟨t,op,ret⟩,⟨u,op',ret'⟩,rfl⟩ := List.length_eq_two.mp length.symm
  match t, u with
  | 0, 0 => simp [callsOf] at one
  | 1, 1 => simp [callsOf] at zero
  | 0, 1 =>
    simp only [callsOf,List.filter_cons,List.filter_nil] at zero one
    refine .inl ?_
    cases zero; cases one; rfl
  | 1, 0 =>
    simp only [callsOf,List.filter_cons,List.filter_nil] at zero one
    refine .inr ?_
    cases zero; cases one; rfl

/-- Both threads get the whole file, and the position ends at 1200. -/
theorem overlapping_reads : ∃ final,
    run (step (tfsDriver sampleGbd 3 2)) overlapping sampleOpenFile = some final ∧ (∀ t, final.phase t = .idle) ∧
    ¬Serializable (tfsDriver sampleGbd 3 2) (0, sampleOpenFile.driver) final := by
  have ran : (run (step (tfsDriver sampleGbd 3 2)) overlapping sampleOpenFile).any (endsWith 600 600 1200) = true := by
    decide +kernel
  have first : (replay (tfsDriver sampleGbd 3 2) [⟨0, readAll, 600⟩, ⟨1, readAll, 600⟩]
      (0, sampleOpenFile.driver)).isSome = false := by decide +kernel
  have second : (replay (tfsDriver sampleGbd 3 2) [⟨1, readAll, 600⟩, ⟨0, readAll, 600⟩]
      (0, sampleOpenFile.driver)).isSome = false := by decide +kernel
  obtain ⟨final,ran,ends⟩ := (Option.any_eq_true _ _).mp ran
  obtain ⟨zero,one,quiet⟩ := endsWith_spec ends
  refine ⟨final,ran,quiet,?_⟩
  rintro ⟨order,calls,replayed⟩
  obtain rfl | rfl := two_calls ((calls 0).trans zero) ((calls 1).trans one)
  · rw [replayed,Option.isSome_some] at first
    exact absurd first (by decide)
  · rw [replayed,Option.isSome_some] at second
    exact absurd second (by decide)

end Buenos.Fs.Seek
