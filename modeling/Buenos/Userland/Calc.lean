import Buenos.Userland.Cp
import Buenos.Userland.Strings

/-! The calculator of `tests/calc.c`: it reads lines, and what it has read last is on top of its
stack. An operator takes its left operand from the top. -/
namespace Buenos.Userland.Calc

open Buenos.Foundation Buenos.Userland.Strings Buenos.Userland.Cp

/-! ### The program -/

inductive Answer where
  | outOfMemory
  | tooFew
  | stackEmpty
  | value (x : Int)
  | badInput
  deriving DecidableEq

/-- The numbers on the stack from its top down, the blocks that are allocated, how often `malloc`
was called, and what has been printed. -/
structure State where
  stack : List Int
  live : Nat
  mallocs : Nat
  output : List Answer
  deriving DecidableEq

/-- What a piece of the program ends with. A division by zero is not defined. -/
inductive Outcome where
  | next (s : State)
  | exit (code : Int) (s : State)
  | undefined
  deriving DecidableEq

def State.print (s : State) (a : Answer) : State := { s with output := s.output ++ [a] }
def State.free (s : State) (blocks : Nat) : State := { s with live := s.live - blocks }

def outOfMemory (s : State) : Outcome := .exit 1 (s.print .outOfMemory)

/-- `malloc` and the check of its result; `heap` says which calls succeed. -/
def malloc (heap : Nat → Bool) (s : State) (next : State → Outcome) : Outcome :=
  if heap s.mallocs then next { s with live := s.live + 1, mallocs := s.mallocs + 1 }
  else outOfMemory { s with mallocs := s.mallocs + 1 }

/-- The number is in a block of its own, which its element points to. -/
def stackPush (heap : Nat → Bool) (x : Int) (s : State) (next : State → Outcome) : Outcome :=
  malloc heap s fun s => next { s with stack := x :: s.stack }

/-- `none` where the program has no defined result. -/
abbrev Binop := Int → Int → Option Int

def plus : Binop := fun x y => some (wrap (x + y))
def sub : Binop := fun x y => some (wrap (x - y))
def mult : Binop := fun x y => some (wrap (x * y))
def divn : Binop := fun x y => if y = 0 then none else some (wrap (x.tdiv y))

/-- `z` is allocated first. Popping frees the element, and the operands are freed when the
result is there. -/
def performBinop (heap : Nat → Bool) (op : Binop) (s : State) : Outcome :=
  malloc heap s fun s =>
    match s.stack with
    | x :: y :: rest =>
      match op x y with
      | none => .undefined
      | some z => stackPush heap z ({ s with stack := rest }.free 4) .next
    | [x] => stackPush heap x ({ s with stack := [] }.free 1) fun s => .next ((s.free 1).print .tooFew)
    | [] => .next ((s.free 1).print .tooFew)

def numeric (str : List UInt8) : Bool := str.all fun c => !(c < 48 || c > 57)

def equals (buffer command : List UInt8) : Bool := strcmp (literal buffer) (literal command) == 0

/-- One turn of `main`, on the line that `readline` has left in the buffer. -/
def turn (heap : Nat → Bool) (buffer : List UInt8) (s : State) : Outcome :=
  if equals buffer [] then .exit 0 s
  else if equals buffer [43] then performBinop heap plus s
  else if equals buffer [45] then performBinop heap sub s
  else if equals buffer [42] then performBinop heap mult s
  else if equals buffer [47] then performBinop heap divn s
  else if equals buffer [112] then
    match s.stack with
    | [] => .next (s.print .stackEmpty)
    | x :: _ => .next (s.print (.value x))
  else if numeric buffer then malloc heap s fun s => stackPush heap (atoiFrom 0 buffer) s .next
  else .next (s.print .badInput)

def mainLoop (heap : Nat → Bool) : List (List UInt8) → State → Outcome
  | [], s => .next s
  | buffer :: rest, s =>
    match turn heap buffer s with
    | .next t => mainLoop heap rest t
    | .exit code t => .exit code t
    | .undefined => .undefined

def start : State := ⟨[],0,0,[]⟩

theorem mainLoop_append (heap : Nat → Bool) (first second : List (List UInt8)) (s : State) :
    mainLoop heap (first ++ second) s =
      match mainLoop heap first s with
      | .next t => mainLoop heap second t
      | .exit code t => .exit code t
      | .undefined => .undefined := by
  induction first generalizing s with
  | nil => rfl
  | cons buffer rest ih =>
    rw [List.cons_append,mainLoop,mainLoop]
    cases turn heap buffer s with
    | next t => exact ih t
    | exit code t => rfl
    | undefined => rfl

/-! ### Lines -/

/-- A line in the buffer of 20 characters. -/
def IsLine (l : List UInt8) : Prop := 0 ∉ l ∧ l.length < 20

instance (l : List UInt8) : Decidable (IsLine l) := inferInstanceAs (Decidable (_ ∧ _))

theorem equals_iff (line : IsLine buffer) (clean : 0 ∉ command) : equals buffer command = true ↔ buffer = command := by
  have order := strcmp_order (literal_holds line.1) (literal_holds clean) (by have := line.2; omega)
  rw [equals,beq_iff_eq]
  exact order.1

/-- The text of a number: digits, and at most as many as the buffer has room for. -/
structure IsNumeral (l : List UInt8) : Prop where
  nonempty : l ≠ []
  digits : ∀ c ∈ l, ¬(c < 48 ∨ c > 57)
  short : l.length < 20

theorem IsNumeral.line (numeral : IsNumeral l) : IsLine l := by
  refine ⟨fun zero => ?_,numeral.short⟩
  exact numeral.digits 0 zero (.inl (by decide))

theorem IsNumeral.ne (numeral : IsNumeral l) (other : c < 48 ∨ c > 57) : l ≠ [c] := by
  rintro rfl
  exact numeral.digits c List.mem_cons_self other

theorem turn_numeral (heap : Nat → Bool) (numeral : IsNumeral l) (s : State) :
    turn heap l s = malloc heap s fun s => stackPush heap (atoiFrom 0 l) s .next := by
  have apart : ∀ command, 0 ∉ command → l ≠ command → equals l command = false := by
    intro command clean other
    rw [Bool.eq_false_iff]
    exact fun same => other ((equals_iff numeral.line clean).mp same)
  have digits : numeric l = true := by
    rw [numeric,List.all_eq_true]
    intro c member
    simpa using numeral.digits c member
  rw [turn,apart _ (by decide) numeral.nonempty,apart _ (by decide) (numeral.ne (.inl (by decide))),
    apart _ (by decide) (numeral.ne (.inl (by decide))),apart _ (by decide) (numeral.ne (.inl (by decide))),
    apart _ (by decide) (numeral.ne (.inl (by decide))),apart _ (by decide) (numeral.ne (.inr (by decide))),digits]
  rfl

/-! ### Expressions -/

inductive Operator where
  | add
  | subtract
  | multiply
  | divide
  deriving DecidableEq

def Operator.text : Operator → List UInt8
  | .add => [43]
  | .subtract => [45]
  | .multiply => [42]
  | .divide => [47]

def Operator.binop : Operator → Binop
  | .add => plus
  | .subtract => sub
  | .multiply => mult
  | .divide => divn

inductive Expr where
  | numeral (text : List UInt8)
  | apply (o : Operator) (left right : Expr)

def Expr.WellFormed : Expr → Prop
  | .numeral text => IsNumeral text
  | .apply _ left right => left.WellFormed ∧ right.WellFormed

/-- The value in 32-bit arithmetic, `none` if something is divided by zero. -/
def Expr.value : Expr → Option Int
  | .numeral text => some (atoiFrom 0 text)
  | .apply o left right => right.value.bind fun y => left.value.bind fun x => o.binop x y

/-- The lines to be typed: the right operand comes first. -/
def Expr.lines : Expr → List (List UInt8)
  | .numeral text => [text]
  | .apply o left right => right.lines ++ left.lines ++ [o.text]

def Expr.size : Expr → Nat
  | .numeral _ => 1
  | .apply _ left right => left.size + right.size + 1

theorem turn_operator (heap : Nat → Bool) (o : Operator) (s : State) :
    turn heap o.text s = performBinop heap o.binop s := by
  cases o with
  | add => rfl
  | subtract => rfl
  | multiply => rfl
  | divide => rfl

/-- As long as `malloc` succeeds an expression puts its value on the stack, and changes nothing
else but the count of calls. -/
theorem mainLoop_lines (heap : Nat → Bool) (enough : ∀ n, heap n = true) (e : Expr) (formed : e.WellFormed) (s : State) :
    mainLoop heap e.lines s =
      match e.value with
      | some v => .next { s with stack := v :: s.stack, live := s.live + 2, mallocs := s.mallocs + 2 * e.size }
      | none => .undefined := by
  have allocate : ∀ (s : State) (next : State → Outcome),
      malloc heap s next = next { s with live := s.live + 1, mallocs := s.mallocs + 1 } := by
    intro s next
    rw [malloc,enough,if_pos rfl]
  induction e generalizing s with
  | numeral text =>
    rw [Expr.lines,mainLoop,turn_numeral heap formed,allocate,stackPush,allocate]
    rfl
  | apply o left right ihl ihr =>
    rw [Expr.lines,List.append_assoc,mainLoop_append,ihr formed.2,Expr.value]
    cases right.value with
    | none => rfl
    | some y =>
      dsimp only
      rw [mainLoop_append,ihl formed.1]
      cases left.value with
      | none => rfl
      | some x =>
        dsimp only
        rw [mainLoop,turn_operator,performBinop,allocate,Option.bind_some,Option.bind_some]
        dsimp only
        cases o.binop x y with
        | none => rfl
        | some v =>
          dsimp only
          rw [stackPush,allocate]
          simp only [mainLoop,State.free,Expr.size]
          congr 2
          omega

/-- 8 - 2 is typed as 2, 8 and the minus sign. -/
theorem mainLoop_lines_difference : mainLoop (fun _ => true) [[50],[56],[45]] start = .next ⟨[6],2,6,[]⟩ := by
  have typed := mainLoop_lines (fun _ => true) (fun _ => rfl) (.apply .subtract (.numeral [56]) (.numeral [50]))
    ⟨⟨by decide,by simp,by decide⟩,⟨by decide,by simp,by decide⟩⟩ start
  exact typed.trans (by decide)

/-! ### Runs -/

/-- Every number on the stack has two blocks and no others are allocated, and no call of `malloc`
has failed so far. -/
structure Tidy (heap : Nat → Bool) (s : State) : Prop where
  live : s.live = 2 * s.stack.length
  served : ∀ n < s.mallocs, heap n = true

/-- How a piece of the program goes on or gives up that has printed `output` before. -/
def Leads (heap : Nat → Bool) (property : State → Prop) (output : List Answer) : Outcome → Prop
  | .next t => property t
  | .exit code t => code = 1 ∧ (∃ n < t.mallocs, heap n = false) ∧ t.output = output ++ [.outOfMemory]
  | .undefined => True

theorem malloc_leads {heap : Nat → Bool} (goes : heap s.mallocs = true → Leads heap property s.output
    (next { s with live := s.live + 1, mallocs := s.mallocs + 1 })) : Leads heap property s.output (malloc heap s next) := by
  unfold malloc
  split
  · next served => exact goes served
  · next failed => exact ⟨rfl,⟨s.mallocs,Nat.lt_succ_self _,by simpa using failed⟩,rfl⟩

theorem served_more {heap : Nat → Bool} (served : ∀ n < k, heap n = true) (now : heap k = true) : ∀ n < k + 1, heap n = true := by
  intro n small
  by_cases last : n = k
  · rw [last]; exact now
  · exact served n (by omega)

theorem performBinop_leads (op : Binop) (tidy : Tidy heap s) : Leads heap (Tidy heap) s.output (performBinop heap op s) := by
  obtain ⟨live,served⟩ := tidy
  refine malloc_leads fun first => ?_
  have once := served_more served first
  obtain ⟨stack,blocks,mallocs,output⟩ := s
  dsimp only at live once ⊢
  match stack with
  | [] =>
    refine ⟨?_,once⟩
    simp [State.free,State.print,live]
  | [x] =>
    refine malloc_leads (s := ⟨[],blocks + 1 - 1,mallocs + 1,output⟩) fun second => ⟨?_,served_more once second⟩
    simp [State.free,State.print,live]
  | x :: y :: rest =>
    dsimp only
    cases op x y with
    | none => trivial
    | some z =>
      refine malloc_leads (s := ⟨rest,blocks + 1 - 4,mallocs + 1,output⟩) fun second => ⟨?_,served_more once second⟩
      simp only [List.length_cons] at live ⊢
      omega

/-- One turn ends the program at an empty line, gives up for want of memory, or leaves the
stack tidy. -/
theorem turn_tidy (line : IsLine buffer) (tidy : Tidy heap s) :
    (buffer = [] ∧ turn heap buffer s = .exit 0 s) ∨ Leads heap (Tidy heap) s.output (turn heap buffer s) := by
  unfold turn
  split
  · next empty => exact .inl ⟨(equals_iff line (by decide)).mp empty,rfl⟩
  refine .inr ?_
  split
  · exact performBinop_leads plus tidy
  split
  · exact performBinop_leads sub tidy
  split
  · exact performBinop_leads mult tidy
  split
  · exact performBinop_leads divn tidy
  split
  · split
    · exact ⟨tidy.live,tidy.served⟩
    · exact ⟨tidy.live,tidy.served⟩
  split
  · refine malloc_leads fun first => ?_
    have once := served_more tidy.served first
    refine malloc_leads (s := ⟨s.stack,s.live + 1,s.mallocs + 1,s.output⟩) fun second => ⟨?_,served_more once second⟩
    simp only [List.length_cons,tidy.live]
    omega
  · exact ⟨tidy.live,tidy.served⟩

/-- An operator that finds fewer than two numbers leaves the stack and the memory as they were. -/
theorem tooFew_restores {heap : Nat → Bool} (enough : ∀ n, heap n = true) (o : Operator) (few : s.stack.length < 2) :
    ∃ k, turn heap o.text s = .next { s.print .tooFew with mallocs := s.mallocs + k } := by
  obtain ⟨stack,live,mallocs,output⟩ := s
  rw [turn_operator,performBinop,malloc,enough,if_pos rfl]
  match stack with
  | [] => exact ⟨1,rfl⟩
  | [x] =>
    refine ⟨2,?_⟩
    dsimp only
    rw [stackPush,malloc,enough,if_pos rfl]
    rfl
  | x :: y :: rest =>
    simp only [List.length_cons] at few
    omega

/-- On any input the calculator keeps two blocks for each number on its stack and no others. It
ends with code 0 at an empty line, and with code 1 and its message only when `malloc` has failed. -/
theorem calc_keeps_tidy (heap : Nat → Bool) (input : List (List UInt8)) (lines : ∀ l ∈ input, IsLine l) :
    match mainLoop heap input start with
    | .next t => Tidy heap t
    | .exit code t => (code = 0 ∧ [] ∈ input ∧ Tidy heap t) ∨
        (code = 1 ∧ (∃ n < t.mallocs, heap n = false) ∧ t.output.getLast? = some .outOfMemory)
    | .undefined => True := by
  have initial : Tidy heap start := ⟨rfl,fun n small => absurd small (Nat.not_lt_zero n)⟩
  generalize start = s at initial
  induction input generalizing s with
  | nil => exact initial
  | cons buffer rest ih =>
    rw [mainLoop]
    obtain ⟨rfl,ends⟩ | leads := turn_tidy (lines buffer List.mem_cons_self) initial
    · rw [ends]
      exact .inl ⟨rfl,List.mem_cons_self,initial⟩
    · cases result : turn heap buffer s with
      | next t =>
        rw [result] at leads
        have later := ih (fun l member => lines l (List.mem_cons_of_mem buffer member)) t leads
        dsimp only
        cases final : mainLoop heap rest t with
        | next u => rwa [final] at later
        | exit code u =>
          rw [final] at later
          exact later.imp_left fun ⟨code,member,tidy⟩ => ⟨code,List.mem_cons_of_mem buffer member,tidy⟩
        | undefined => trivial
      | exit code t =>
        rw [result] at leads
        obtain ⟨code,failed,output⟩ := leads
        exact .inr ⟨code,failed,by rw [output]; simp⟩
      | undefined => trivial

/-- The third call of `malloc`, for the second number, fails. -/
theorem calc_keeps_tidy_failing :
    match mainLoop (fun n => n != 2) [[49],[50],[43]] start with
    | .next t => Tidy (fun n => n != 2) t
    | .exit code t => (code = 0 ∧ [] ∈ [[49],[50],[(43 : UInt8)]] ∧ Tidy (fun n => n != 2) t) ∨
        (code = 1 ∧ (∃ n < t.mallocs, (n != 2) = false) ∧ t.output.getLast? = some .outOfMemory)
    | .undefined => True :=
  calc_keeps_tidy (fun n => n != 2) [[49],[50],[43]] (by decide)

end Buenos.Userland.Calc
