import Buenos.Foundation.Bytes
import Mathlib.Data.List.Basic

/-! Lines from standard input: `gets` and `readline` of `tests/lib.c`, with the index of every
store to the buffer. -/
namespace Buenos.Userland.LineInput

open Buenos.Foundation

/-! ### The code -/

/-- The buffer, the indices stored to, the number of characters taken from standard input, and
the characters on standard output. -/
structure State where
  s : Bytes
  stores : List Nat
  taken : Nat
  output : List UInt8

def start (s : Bytes) : State := ⟨s, [], 0, []⟩

/-- `s[i] = c`. -/
def State.store (t : State) (i : Nat) (c : UInt8) : State :=
  { t with s := Function.update t.s i c, stores := i :: t.stores }

def putc (c : UInt8) (t : State) : State := { t with output := t.output ++ [c] }

section Input
variable (input : Nat → UInt8)

def getcRaw (t : State) : UInt8 × State := (input t.taken, { t with taken := t.taken + 1 })

def getc (t : State) : UInt8 × State := ((getcRaw input t).1, putc (getcRaw input t).1 (getcRaw input t).2)

def getsLoop (size : UInt32) (count : Nat) (t : State) : Nat × State :=
  if count + 1 < size.toNat then getsLoop size (count + 1) ((getc input t).2.store count (getc input t).1)
  else (count, t)
termination_by size.toNat - count

def gets (s : Bytes) (size : UInt32) : Nat × State :=
  let r := getsLoop input size 0 (start s)
  (r.1, r.2.store (r.1 + 1) 0)

/-- The call goes on with a count, or has returned it. -/
inductive Progress where
  | running (count : Nat) (t : State)
  | returned (count : Nat) (t : State)

def Progress.state : Progress → State
  | running _ t => t
  | returned _ t => t

/-- One turn of the loop of `readline`, the `switch` on a character that was read. -/
def readlineSwitch (size : UInt32) (c : UInt8) (count : Nat) (t : State) : Progress :=
  if c = '\r'.toUInt8 ∨ c = '\n'.toUInt8 then .returned count ((putc '\n'.toUInt8 t).store count 0)
  else if c = 127 then
    if 0 < count then .running (count - 1) (putc 8 (putc ' '.toUInt8 (putc 8 t))) else .running count t
  else if count < (size - 1).toNat then .running (count + 1) (putc c (t.store count c))
  else .running count t

def readlineTurn (size : UInt32) : Progress → Progress
  | .running count t => readlineSwitch size (getcRaw input t).1 count (getcRaw input t).2
  | .returned count t => .returned count t

/-- After so many turns. -/
def readline (s : Bytes) (size : UInt32) : Nat → Progress
  | 0 => .running 0 (start s)
  | turns + 1 => readlineTurn input size (readline s size turns)

end Input

/-! ### What it is for -/

def IsNewline (c : UInt8) : Prop := c = '\r'.toUInt8 ∨ c = '\n'.toUInt8

/-- What a character does to a line of less than `size` characters. -/
def edit (size : UInt32) (line : List UInt8) (c : UInt8) : List UInt8 :=
  if c = 127 then line.dropLast else if line.length < size.toNat - 1 then line ++ [c] else line

/-- The line after the first `k` characters. -/
def edited (input : Nat → UInt8) (size : UInt32) (k : Nat) : List UInt8 :=
  ((List.range k).map input).foldl (edit size) []

/-- `gets` stores only to the buffer, and a NUL where it says that the line ends. -/
structure GetsFits (input : Nat → UInt8) (s : Bytes) (size : UInt32) : Prop where
  inside : ∀ i ∈ (gets input s size).2.stores, i < size.toNat
  ended : (gets input s size).2.s (gets input s size).1 = 0

/-- `readline` stores only to the buffer, however far it has come. Once it has returned, the
buffer holds the line that the characters before the first newline make, and a NUL behind it. -/
structure ReadlineFits (input : Nat → UInt8) (s : Bytes) (size : UInt32) : Prop where
  inside : ∀ turns, ∀ i ∈ (readline input s size turns).state.stores, i < size.toNat
  line : ∀ turns count t, readline input s size turns = .returned count t →
    t.s count = 0 ∧ ∃ k, IsNewline (input k) ∧ (∀ j < k, ¬IsNewline (input j)) ∧
      (List.range count).map t.s = edited input size k

/-! ### `gets` -/

/-- The loop stores to the first indices and stops at the last one of the buffer. -/
theorem getsLoop_spec (input : Nat → UInt8) (size : UInt32) (count : Nat) (t : State) (small : count + 1 ≤ size.toNat) :
    (getsLoop input size count t).1 + 1 = size.toNat ∧
    ∀ i, size.toNat ≤ i + 1 → (getsLoop input size count t).2.s i = t.s i := by
  fun_induction getsLoop input size count t with
  | case1 count t more ih =>
    obtain ⟨last,kept⟩ := ih (by omega)
    refine ⟨last,fun i high => ?_⟩
    rw [kept i high]
    exact Function.update_of_ne (by omega) _ _
  | case2 count t full => exact ⟨by omega,fun _ _ => rfl⟩

/-- The NUL goes behind the buffer, and the last byte of the buffer stays. -/
theorem gets_past (input : Nat → UInt8) (s : Bytes) (size : UInt32) (positive : 1 ≤ size.toNat) :
    (gets input s size).1 + 1 = size.toNat ∧ size.toNat ∈ (gets input s size).2.stores ∧
    (gets input s size).2.s (gets input s size).1 = s (gets input s size).1 := by
  obtain ⟨last,kept⟩ := getsLoop_spec input size 0 (start s) positive
  rw [gets]
  dsimp only
  generalize getsLoop input size 0 (start s) = r at last kept
  refine ⟨last,?_,?_⟩
  · rw [← last]
    exact List.mem_cons_self
  · have stays := kept r.1 (by omega)
    exact (Function.update_of_ne (by omega) _ _).trans stays

/-! ### `readline` -/

/-- After `k` characters without a newline. -/
structure Editing (input : Nat → UInt8) (size : UInt32) (k count : Nat) (t : State) : Prop where
  taken : t.taken = k
  open_ : ∀ j < k, ¬IsNewline (input j)
  length : (edited input size k).length = count
  fits : count + 1 ≤ size.toNat
  line : (List.range count).map t.s = edited input size k
  inside : ∀ i ∈ t.stores, i < size.toNat

/-- After the newline. -/
structure Ended (input : Nat → UInt8) (size : UInt32) (count : Nat) (t : State) : Prop where
  inside : ∀ i ∈ t.stores, i < size.toNat
  nul : t.s count = 0
  line : ∃ k, IsNewline (input k) ∧ (∀ j < k, ¬IsNewline (input j)) ∧ (List.range count).map t.s = edited input size k

def Progress.Good (input : Nat → UInt8) (size : UInt32) (k : Nat) : Progress → Prop
  | .running count t => Editing input size k count t
  | .returned count t => Ended input size count t

theorem edited_succ (input : Nat → UInt8) (size : UInt32) (k : Nat) :
    edited input size (k + 1) = edit size (edited input size k) (input k) := by
  rw [edited,List.range_succ,List.map_append,List.foldl_append,← edited]
  rfl

section Turn
variable {input : Nat → UInt8} {size : UInt32}

theorem range_update (s : Bytes) (c : UInt8) (count : Nat) (high : count ≤ i) :
    (List.range count).map (Function.update s i c) = (List.range count).map s := by
  apply List.map_congr_left
  intro j member
  have low := List.mem_range.mp member
  exact Function.update_of_ne (by omega) _ _

theorem start_editing (s : Bytes) (positive : 1 ≤ size.toNat) : Editing input size 0 0 (start s) :=
  ⟨rfl,by omega,rfl,by omega,rfl,by simp [start]⟩

theorem Editing.newline (editing : Editing input size k count t) (newline : IsNewline (input k)) :
    Ended input size count ((putc '\n'.toUInt8 { t with taken := k + 1 }).store count 0) := by
  refine ⟨?_,Function.update_self _ _ _,k,newline,editing.open_,?_⟩
  · intro i member
    rcases List.mem_cons.mp member with rfl | earlier
    · have := editing.fits
      omega
    · exact editing.inside i earlier
  · rw [← editing.line]
    exact range_update t.s 0 count (Nat.le_refl _)

theorem Editing.still_open (editing : Editing input size k count t) (other : ¬IsNewline (input k)) :
    ∀ j < k + 1, ¬IsNewline (input j) := by
  intro j small
  by_cases last : j = k
  · rwa [last]
  · exact editing.open_ j (by omega)

theorem Editing.delete (editing : Editing input size k (count + 1) t) (other : ¬IsNewline (input k)) (key : input k = 127) :
    Editing input size (k + 1) count (putc 8 (putc ' '.toUInt8 (putc 8 { t with taken := k + 1 }))) := by
  have next := edited_succ input size k
  rw [edit,if_pos key] at next
  refine ⟨rfl,editing.still_open other,?_,?_,?_,editing.inside⟩
  · rw [next,List.length_dropLast,editing.length,Nat.add_sub_cancel]
  · exact Nat.le_of_succ_le editing.fits
  · rw [next,← editing.line,List.range_succ,List.map_append]
    exact List.dropLast_concat.symm

theorem Editing.append (editing : Editing input size k count t) (other : ¬IsNewline (input k)) (key : input k ≠ 127)
    (room : count < size.toNat - 1) :
    Editing input size (k + 1) (count + 1) (putc (input k) (State.store { t with taken := k + 1 } count (input k))) := by
  have next := edited_succ input size k
  rw [edit,if_neg key,editing.length,if_pos room] at next
  refine ⟨rfl,editing.still_open other,?_,by omega,?_,?_⟩
  · rw [next,List.length_append,editing.length]
    rfl
  · rw [next,List.range_succ,List.map_append,← editing.line]
    congr 1
    · exact range_update t.s (input k) count (Nat.le_refl _)
    · exact congrArg (fun c => [c]) (Function.update_self _ _ _)
  · intro i member
    rcases List.mem_cons.mp member with rfl | earlier
    · omega
    · exact editing.inside i earlier

theorem Editing.ignore (editing : Editing input size k count t) (other : ¬IsNewline (input k))
    (same : edit size (edited input size k) (input k) = edited input size k) :
    Editing input size (k + 1) count { t with taken := k + 1 } := by
  have next := (edited_succ input size k).trans same
  refine ⟨rfl,editing.still_open other,?_,editing.fits,?_,editing.inside⟩
  · rw [next,editing.length]
  · rw [next]
    exact editing.line

theorem Editing.turn (editing : Editing input size k count t) :
    (readlineTurn input size (.running count t)).Good input size (k + 1) := by
  have read : readlineTurn input size (.running count t) = readlineSwitch size (input k) count { t with taken := k + 1 } := by
    rw [readlineTurn,getcRaw,editing.taken]
  have limit : (size - 1).toNat = size.toNat - 1 := by
    rw [UInt32.toNat_sub_of_le]
    · rfl
    · rw [UInt32.le_iff_toNat_le]
      exact Nat.le_trans (Nat.le_add_left 1 count) editing.fits
  rw [read,readlineSwitch,limit]
  split
  · next newline => exact editing.newline newline
  · next other =>
    split
    · next key =>
      split
      · next some_ =>
        obtain ⟨m,rfl⟩ : ∃ m, count = m + 1 := ⟨count - 1,by omega⟩
        exact editing.delete other key
      · next none =>
        have empty : edited input size k = [] := by
          rw [← List.length_eq_zero_iff,editing.length]
          omega
        apply editing.ignore other
        rw [edit,if_pos key,empty]
        rfl
    · next key =>
      split
      · next room => exact editing.append other key room
      · next full =>
        apply editing.ignore other
        rw [edit,if_neg key,editing.length,if_neg full]

/-- The run: `k` turns take `k` characters, or end before. -/
theorem readline_good (input : Nat → UInt8) (s : Bytes) (positive : 1 ≤ size.toNat) (turns : Nat) :
    (readline input s size turns).Good input size turns := by
  induction turns with
  | zero => exact start_editing s positive
  | succ turns ih =>
    rw [readline]
    cases progress : readline input s size turns with
    | running count t =>
      rw [progress] at ih
      exact Editing.turn ih
    | returned count t =>
      rw [progress] at ih
      exact ih

theorem readline_fits (s : Bytes) (positive : 1 ≤ size.toNat) : ReadlineFits input s size := by
  constructor
  · intro turns
    have good := readline_good input s positive turns
    cases progress : readline input s size turns with
    | running count t =>
      rw [progress] at good
      exact good.inside
    | returned count t =>
      rw [progress] at good
      exact good.inside
  · intro turns count t returned
    have good := readline_good input s positive turns
    rw [returned] at good
    exact ⟨good.nul,good.line⟩

theorem readline_returns (s : Bytes) (positive : 1 ≤ size.toNat) (newline : IsNewline (input k)) :
    ∃ count t, readline input s size (k + 1) = .returned count t := by
  have good := readline_good input s positive (k + 1)
  cases progress : readline input s size (k + 1) with
  | returned count t => exact ⟨count,t,rfl⟩
  | running count t =>
    rw [progress] at good
    exact absurd newline (good.open_ k (Nat.lt_succ_self k))

end Turn

/-- `gets` leaves every buffer, and `readline` none. -/
theorem line_input (input : Nat → UInt8) (s : Bytes) (size : UInt32) (positive : 1 ≤ size) :
    ¬GetsFits input s size ∧ ReadlineFits input s size ∧
    ((∃ k, IsNewline (input k)) → ∃ turns count t, readline input s size turns = .returned count t) := by
  have positive' : 1 ≤ size.toNat := UInt32.le_iff_toNat_le.mp positive
  refine ⟨?_,readline_fits s positive',?_⟩
  · intro fits
    obtain ⟨_,past,_⟩ := gets_past input s size positive'
    exact absurd (fits.inside _ past) (Nat.lt_irrefl _)
  · rintro ⟨k,newline⟩
    exact ⟨k + 1,readline_returns s positive' newline⟩

/-- Three letters, the last of them taken back, a fourth and newlines. -/
def typed (i : Nat) : UInt8 := [97, 98, 120, 127, 99].getD i 10

theorem line_input_backspace : ¬GetsFits typed (fun _ => 255) 8 ∧ ReadlineFits typed (fun _ => 255) 8 ∧
    ∃ turns t, readline typed (fun _ => 255) 8 turns = .returned 3 t ∧ t.s 3 = 0 ∧
      (List.range 3).map t.s = [97, 98, 99] := by
  obtain ⟨gets,fits,-⟩ := line_input typed (fun _ => 255) 8 (by decide)
  refine ⟨gets,fits,6,_,rfl,?_,?_⟩
  · exact (fits.line 6 3 _ rfl).1
  · decide

/-- Letters into four bytes: three of them are stored, and the NUL behind the fourth byte. -/
theorem gets_four_bytes :
    ¬(GetsFits (fun _ => 'a'.toUInt8) (fun _ => 255) 4 ∧ ReadlineFits (fun _ => 'a'.toUInt8) (fun _ => 255) 4) := by
  rintro ⟨fits,_⟩
  obtain ⟨_,past,_⟩ := gets_past (fun _ => 'a'.toUInt8) (fun _ => 255) 4 (by decide)
  exact absurd (fits.inside _ past) (Nat.lt_irrefl _)

end Buenos.Userland.LineInput
