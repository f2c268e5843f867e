import Buenos.Lib.XprintfPieces

/-! What is output when there is room for all of it, and what of it fits into a buffer. -/
namespace Buenos.Lib.Xprintf

open Buenos.Foundation

/-! ### The complete output -/

def signs (m : Modifiers) (arg : Int) : List UInt8 :=
  (if arg < 0 then ['-'.toUInt8] else []) ++
    if m.flags.sign then ['+'.toUInt8] else if m.flags.space then [' '.toUInt8] else []

def signedText (m : Modifiers) (arg : Int) : List UInt8 :=
  signs m arg ++ uintText m.flags (toU32 (if arg < 0 then wrap (-arg) else arg)) 10 0 0

def unsignedText (m : Modifiers) (uarg : UInt32) (base : Nat) : List UInt8 :=
  uintText m.flags uarg.toNat base (if m.prec < m.width ∧ m.flags.zeropad then m.width else m.prec) m.width

def hexText (m : Modifiers) (uarg : UInt32) : List UInt8 :=
  if m.flags.alt then
    '0'.toUInt8 :: 'x'.toUInt8 :: unsignedText { m with width := wrap (m.width - 2) } uarg 16
  else unsignedText m uarg 16

/-- The precision counts from the `w` characters that are there already. -/
def stringText (m : Modifiers) (w : Int) (s : List UInt8) : List UInt8 :=
  if m.prec = -1 then s else s.take (wrap (w + m.prec) - w).toNat

def conversionText (ap : Arguments) (k : Nat) (w : Int) (ch : UInt8) (m : Modifiers) : List UInt8 :=
  if ch = 'i'.toUInt8 ∨ ch = 'd'.toUInt8 then signedText m (toS32 (ap.word k).toNat)
  else if ch = 'o'.toUInt8 then unsignedText m (ap.word k) 8
  else if ch = 'u'.toUInt8 then unsignedText m (ap.word k) 10
  else if ch = 'p'.toUInt8 then hexText { m with flags.alt := true, flags.smalls := true } (ap.word k)
  else if ch = 'x'.toUInt8 then hexText { m with flags.smalls := true } (ap.word k)
  else if ch = 'X'.toUInt8 then hexText m (ap.word k)
  else if ch = 'c'.toUInt8 then [(ap.word k).toUInt8]
  else if ch = 's'.toUInt8 then stringText m w (ap.string (ap.word k))
  else [ch]

def argumentsOf (ch : UInt8) : Nat :=
  if ch ∈ ['i','d','o','u','p','x','X','c','s'].map Char.toUInt8 then 1 else 0

def Piece.arguments : Piece → Nat
  | .conversion _ ch => argumentsOf ch
  | _ => 0

def Piece.text (ap : Arguments) (tty : Bool) (k : Nat) (w : Int) : Piece → List UInt8
  | .plain c => [c]
  | .conversion mods ch => conversionText ap k w ch (readModifiers tty mods)
  | .unfinished _ => []

def outputFrom (ap : Arguments) (tty : Bool) : Nat → Int → List Piece → List UInt8
  | _, _, [] => []
  | k, w, p :: rest =>
    p.text ap tty k w ++ outputFrom ap tty (k + p.arguments) (w + (p.text ap tty k w).length) rest

def output (ap : Arguments) (tty : Bool) (ps : List Piece) : List UInt8 := outputFrom ap tty 0 0 ps

/-- `%d` or `%i` of a negative number with a sign or space flag: both `'-'` and the other
character are written, and the code looks for room behind them only. -/
def Piece.TwoSigns (ap : Arguments) (tty : Bool) (k : Nat) : Piece → Prop
  | .conversion mods ch => (ch = 'i'.toUInt8 ∨ ch = 'd'.toUInt8) ∧ toS32 (ap.word k).toNat < 0 ∧
    ((readModifiers tty mods).flags.sign = true ∨ (readModifiers tty mods).flags.space = true)
  | _ => False

instance (ap : Arguments) (tty : Bool) (k : Nat) (p : Piece) : Decidable (p.TwoSigns ap tty k) :=
  match p with
  | .conversion mods ch => inferInstanceAs (Decidable ((ch = 'i'.toUInt8 ∨ ch = 'd'.toUInt8) ∧
      toS32 (ap.word k).toNat < 0 ∧
      ((readModifiers tty mods).flags.sign = true ∨ (readModifiers tty mods).flags.space = true)))
  | .plain _ | .unfinished _ => isFalse not_false

/-! ### The conversions with a limit -/

section Puts
variable {flags other : Flags} {o : Out}

theorem put_flags (same : flags.tty = other.tty) : Out.put flags = Out.put other := by
  funext o c
  simp [Out.put,printc,same]

theorem puts_flags (same : flags.tty = other.tty) : Out.puts flags = Out.puts other := by
  funext o cs
  rw [Out.puts,Out.puts,put_flags same]

theorem put_puts : o.put flags c = o.puts flags [c] := rfl

theorem puts_puts : (o.puts flags cs).puts flags ds = o.puts flags (cs ++ ds) := List.foldl_append.symm

@[simp] theorem puts_written : (o.puts flags cs).written = o.written + cs.length := by
  induction cs generalizing o with
  | nil => simp [Out.puts]
  | cons c rest ih =>
    rw [Out.puts,List.foldl_cons,← Out.puts,ih]
    simp only [Out.put,List.length_cons]
    omega

theorem puts_text (buffer : flags.tty = false) : (o.puts flags cs).text = o.text ++ cs := by
  induction cs generalizing o with
  | nil => simp [Out.puts]
  | cons c rest ih =>
    rw [Out.puts,List.foldl_cons,← Out.puts,ih]
    simp [Out.put,printc,buffer]

theorem printUint_puts (o : Out) (size : Int) (n base : Nat) (flags : Flags) (prec width : Int) :
    printUint o size n base flags prec width = o.puts flags ((uintText flags n base prec width).take size.toNat) := by
  unfold printUint
  split
  · next none => rw [Int.toNat_eq_zero.mpr none]; rfl
  · rfl

theorem printString_puts (flags : Flags) (w : Int) (s : List UInt8) (o : Out) :
    printString flags w s o = o.puts flags (s.take (w - o.written).toNat) := by
  induction s generalizing o with
  | nil => simp [printString,Out.puts]
  | cons c rest ih =>
    rw [printString]
    split
    · next room =>
      rw [ih]
      have one : (w - o.written).toNat = (w - (o.put flags c).written).toNat + 1 := by
        simp only [Out.put]
        omega
      rw [one,List.take_succ_cons]
      rfl
    · next full =>
      rw [Int.toNat_eq_zero.mpr (by omega)]
      rfl

end Puts

section Conversions
variable {size : Int} {m : Modifiers} {o : Out}

theorem printSigned_puts (size : Int) (m : Modifiers) (arg : Int) (o : Out) : printSigned size m arg o =
    o.puts m.flags ((signedText m arg).take (max (size - o.written).toNat (signs m arg).length)) := by
  have first : (if m.flags.sign then (if arg < 0 then o.put m.flags '-'.toUInt8 else o).put m.flags '+'.toUInt8
      else if m.flags.space then (if arg < 0 then o.put m.flags '-'.toUInt8 else o).put m.flags ' '.toUInt8
      else if arg < 0 then o.put m.flags '-'.toUInt8 else o) = o.puts m.flags (signs m arg) := by
    unfold signs
    split <;> split <;> (try split) <;> rfl
  unfold printSigned
  simp only
  rw [first,printUint_puts,puts_puts,puts_written,signedText,List.take_append,List.take_of_length_le (Nat.le_max_right _ _)]
  congr 3
  omega

theorem printUnsigned_puts (size : Int) (m : Modifiers) (uarg : UInt32) (base : Nat) (o : Out) :
    printUnsigned size m uarg base o = o.puts m.flags ((unsignedText m uarg base).take (size - o.written).toNat) := by
  unfold printUnsigned
  rw [printUint_puts]
  rfl

theorem printHex_puts (room : o.written < size) (uarg : UInt32) :
    printHex size m uarg o = o.puts m.flags ((hexText m uarg).take (size - o.written).toNat) := by
  unfold printHex hexText
  split
  swap
  · exact printUnsigned_puts size m uarg 16 o
  simp only
  rw [put_puts]
  split
  · next more =>
    rw [puts_written,List.length_singleton] at more
    rw [put_puts,puts_puts,printUnsigned_puts,puts_puts,puts_written]
    have two : (size - o.written).toNat = (size - (o.written + 2)).toNat + 2 := by omega
    rw [two,List.take_succ_cons,List.take_succ_cons]
    rfl
  · next full =>
    rw [puts_written,List.length_singleton] at full
    have one : (size - o.written).toNat = 1 := by omega
    rw [printUnsigned_puts,puts_written,Int.toNat_eq_zero.mpr (by rw [List.length_singleton]; omega),one]
    rfl

theorem printStringArg_puts (room : o.written < size) (s : List UInt8) :
    printStringArg size m s o = o.puts m.flags ((stringText m o.written s).take (size - o.written).toNat) := by
  unfold printStringArg stringText
  rw [printString_puts]
  by_cases whole : m.prec = -1
  · rw [if_neg fun both => both.1 whole,if_pos whole]
  · rw [if_neg whole,List.take_take]
    by_cases short : wrap (o.written + m.prec) < size
    · rw [if_pos ⟨whole,short⟩]
      congr 2
      omega
    · rw [if_neg fun both => short both.2]
      congr 2
      omega

def unchecked (ap : Arguments) (k : Nat) (ch : UInt8) (m : Modifiers) : Nat :=
  if ch = 'i'.toUInt8 ∨ ch = 'd'.toUInt8 then (signs m (toS32 (ap.word k).toNat)).length else 0

/-- A conversion writes what fits, and its signs in any case. -/
theorem convert_puts (room : o.written < size) (ap : Arguments) (k : Nat) (ch : UInt8) (m : Modifiers) :
    convert size ap k ch m o = (o.puts m.flags ((conversionText ap k o.written ch m).take
      (max (size - o.written).toNat (unchecked ap k ch m))), argumentsOf ch) := by
  unfold unchecked
  by_cases signed : ch = 'i'.toUInt8 ∨ ch = 'd'.toUInt8
  · have one : argumentsOf ch = 1 := by
      rcases signed with rfl | rfl <;> rfl
    rw [convert,conversionText,if_pos signed,if_pos signed,if_pos signed,one,printSigned_puts]
  have positive : 1 ≤ (size - o.written).toNat := by omega
  have single : ∀ c : UInt8, o.put m.flags c = o.puts m.flags ([c].take (size - o.written).toNat) := by
    intro c
    rw [List.take_of_length_le positive,put_puts]
  rw [convert,conversionText,if_neg signed,if_neg signed,if_neg signed,Nat.max_zero]
  by_cases octal : ch = 'o'.toUInt8
  · subst octal
    rw [if_pos rfl,if_pos rfl,printUnsigned_puts]
    rfl
  rw [if_neg octal,if_neg octal]
  by_cases decimal : ch = 'u'.toUInt8
  · subst decimal
    rw [if_pos rfl,if_pos rfl,printUnsigned_puts]
    rfl
  rw [if_neg decimal,if_neg decimal]
  by_cases pointer : ch = 'p'.toUInt8
  · subst pointer
    rw [if_pos rfl,if_pos rfl,printHex_puts room]
    rfl
  rw [if_neg pointer,if_neg pointer]
  by_cases smalls : ch = 'x'.toUInt8
  · subst smalls
    rw [if_pos rfl,if_pos rfl,printHex_puts room]
    rfl
  rw [if_neg smalls,if_neg smalls]
  by_cases capitals : ch = 'X'.toUInt8
  · subst capitals
    rw [if_pos rfl,if_pos rfl,printHex_puts room]
    rfl
  rw [if_neg capitals,if_neg capitals]
  by_cases character : ch = 'c'.toUInt8
  · subst character
    rw [if_pos rfl,if_pos rfl,single]
    rfl
  rw [if_neg character,if_neg character]
  by_cases string : ch = 's'.toUInt8
  · subst string
    rw [if_pos rfl,if_pos rfl,printStringArg_puts room]
    rfl
  have none : argumentsOf ch = 0 := by
    simp only [not_or] at signed
    simp [argumentsOf,signed.1,signed.2,octal,decimal,pointer,smalls,capitals,character,string]
  rw [if_neg string,if_neg string,none,single]

end Conversions

/-! ### The pieces with a limit -/

def Piece.unchecked (ap : Arguments) (tty : Bool) (k : Nat) : Piece → Nat
  | .conversion mods ch => Xprintf.unchecked ap k ch (readModifiers tty mods)
  | _ => 0

theorem readChar_tty (r : Reading) (c : UInt8) : (readChar r c).modifiers.flags.tty = r.modifiers.flags.tty := by
  unfold readChar
  split
  · split <;> rfl
  · split
    · rfl
    · simp only [setFlag]
      repeat' split
      all_goals rfl

theorem readModifiers_tty (tty : Bool) (mods : List UInt8) : (readModifiers tty mods).flags.tty = tty := by
  have kept : ∀ (mods : List UInt8) r, (mods.foldl readChar r).modifiers.flags.tty = r.modifiers.flags.tty := by
    intro mods
    induction mods with
    | nil => exact fun _ => rfl
    | cons c rest ih => exact fun r => (ih (readChar r c)).trans (readChar_tty r c)
  exact kept mods _

section Execution
variable {size : Int} {ap : Arguments} {tty : Bool}

theorem execute_full {o : Out} (full : ¬o.written < size) (ps : List Piece) (k : Nat) :
    execute size ap tty ps k o = some o := by
  cases ps with
  | nil => rfl
  | cons p rest => cases p <;> simp only [execute,if_neg full]

theorem execute_cons {o : Out} (room : o.written < size) (p : Piece) (rest : List Piece) (k : Nat) :
    execute size ap tty (p :: rest) k o = if '9'.toUInt8 ∈ p.mods then none
      else execute size ap tty rest (k + p.arguments) (o.puts (.none tty)
        ((p.text ap tty k o.written).take (max (size - o.written).toNat (p.unchecked ap tty k)))) := by
  cases p with
  | plain c =>
    rw [execute,if_pos room]
    have positive : 1 ≤ (size - o.written).toNat := by omega
    simp only [Piece.mods,Piece.arguments,Piece.text,Piece.unchecked,List.not_mem_nil,if_false,Nat.add_zero,Nat.max_zero]
    rw [List.take_of_length_le positive,put_puts]
  | conversion mods ch =>
    rw [execute,if_pos room]
    have same : (readModifiers tty mods).flags.tty = (Flags.none tty).tty := readModifiers_tty tty mods
    simp only [convert_puts room,puts_flags same]
    rfl
  | unfinished mods =>
    rw [execute,if_pos room]
    simp only [Piece.arguments,Piece.text,List.take_nil]
    rfl

theorem execute_none (ps : List Piece) (k : Nat) (o : Out) : execute size ap tty ps k o = none ↔
    ∃ before p after, ps = before ++ p :: after ∧ '9'.toUInt8 ∈ p.mods ∧
      o.written + (outputFrom ap tty k o.written before).length < size := by
  induction ps generalizing k o with
  | nil => simp [execute]
  | cons p rest ih =>
    by_cases room : o.written < size
    swap
    · rw [execute_full room]
      simp only [reduceCtorEq,false_iff]
      rintro ⟨before,q,after,_,_,short⟩
      omega
    rw [execute_cons room]
    by_cases nine : '9'.toUInt8 ∈ p.mods
    · rw [if_pos nine]
      exact iff_of_true rfl ⟨[],p,rest,rfl,nine,by simpa [outputFrom] using room⟩
    rw [if_neg nine,ih,puts_written]
    generalize whole : p.text ap tty k o.written = text
    generalize p.unchecked ap tty k = unchecked
    have written : ∀ before, o.written + (text.take (max (size - o.written).toNat unchecked)).length +
          (outputFrom ap tty (k + p.arguments)
            (o.written + (text.take (max (size - o.written).toNat unchecked)).length) before).length < size ↔
        o.written + (outputFrom ap tty k o.written (p :: before)).length < size := by
      intro before
      rw [outputFrom,whole,List.length_append,List.length_take]
      by_cases fits : text.length ≤ (size - o.written).toNat
      · rw [Nat.min_eq_right (by omega)]
        omega
      · omega
    constructor
    · rintro ⟨before,q,after,rfl,there,short⟩
      exact ⟨p :: before,q,after,rfl,there,(written before).mp short⟩
    · rintro ⟨before,q,after,split,there,short⟩
      cases before with
      | nil =>
        obtain ⟨rfl,rfl⟩ := List.cons.inj split
        exact absurd there nine
      | cons first before =>
        obtain ⟨rfl,rfl⟩ := List.cons.inj split
        exact ⟨before,q,after,rfl,there,(written before).mpr short⟩

end Execution

/-- Every conversion that is reached before the room is used up is without `'9'` among its
modifiers. -/
def NoNine (size : Int) (fmt : List UInt8) (ap : Arguments) (tty : Bool) : Prop :=
  ∀ before p after, pieces fmt = before ++ p :: after → ((output ap tty before).length : Int) < size →
    '9'.toUInt8 ∉ p.mods

/-- Formatted output ends just when no `'9'` has to be scanned. -/
theorem vxnprintf_returns (size : Int) (fmt : List UInt8) (ap : Arguments) (tty : Bool) :
    (∃ r, Returns size fmt ap tty r) ↔ NoNine size fmt ap tty := by
  by_cases positive : 0 < size
  swap
  · refine iff_of_true ⟨⟨0,[],none⟩,0,if_pos (by omega)⟩ ?_
    intro before p after _ short
    omega
  have stuck : execute size ap tty (pieces fmt) 0 ⟨[],0⟩ = none ↔ _ := execute_none (pieces fmt) 0 ⟨[],0⟩
  simp only [Int.zero_add] at stuck
  simp only [returns_iff positive]
  constructor
  · rintro ⟨_,o,worked,_⟩ before p after split short nine
    rw [stuck.mpr ⟨before,p,after,split,nine,short⟩] at worked
    contradiction
  · intro clear
    cases worked : execute size ap tty (pieces fmt) 0 ⟨[],0⟩ with
    | none =>
      obtain ⟨before,p,after,split,nine,short⟩ := stuck.mp worked
      exact absurd nine (clear before p after split short)
    | some o => exact ⟨_,o,rfl,rfl⟩

def chars (s : String) : List UInt8 := s.toList.map Char.toUInt8

def number (n : UInt32) : Arguments := ⟨fun _ => n, fun _ => []⟩

/-- `%9d` is scanned for ever. -/
theorem vxnprintf_hangs : ¬∃ r, Returns 20 (chars "%9d") (number 0) false r := by
  rintro ⟨r,returns⟩
  obtain ⟨o,worked,_⟩ := (returns_iff (by decide)).mp returns
  have stuck : execute 20 (number 0) false (pieces (chars "%9d")) 0 ⟨[],0⟩ = none := by decide +kernel
  rw [stuck] at worked
  contradiction

/-! ### The buffer -/

/-- The bytes of the buffer that are written, and what they hold in the end. -/
def Result.Writes (r : Result) (i : Nat) : Prop := i < r.text.length ∨ r.terminator = some i
def Result.byte (r : Result) (i : Nat) : UInt8 := if r.terminator = some i then 0 else r.text.getD i 0

/-- The output stays in its buffer and ends with a NUL there; it is cut where it does not fit. -/
structure Bounded (size : Int) (complete : List UInt8) (r : Result) : Prop where
  inside : ∀ i, r.Writes i → (i : Int) < size
  terminated : ∃ i, r.Writes i ∧ r.byte i = 0
  truncated : r.returned = -1 ↔ size ≤ complete.length
  stored : r.returned ≠ -1 → r.text = complete ∧ r.returned = r.text.length

/-- The arguments that some pieces take. -/
def argumentsBefore (ps : List Piece) : Nat := (ps.map Piece.arguments).sum

/-- No conversion that writes two signs starts with one character left. -/
def ClearFrom (size : Int) (ap : Arguments) (k : Nat) (w : Int) (ps : List Piece) : Prop :=
  ∀ before p after, ps = before ++ p :: after → p.TwoSigns ap false (k + argumentsBefore before) →
    w + (outputFrom ap false k w before).length ≠ size - 1

section Buffer
variable {size : Int} {ap : Arguments}

theorem Piece.TwoSigns.unchecked {p : Piece} (two : p.TwoSigns ap false k) (w : Int) :
    p.unchecked ap false k = 2 ∧ 2 ≤ (p.text ap false k w).length := by
  cases p with
  | plain c => contradiction
  | unfinished mods => contradiction
  | conversion mods ch =>
    obtain ⟨type,negative,flag⟩ := two
    have both : (signs (readModifiers false mods) (toS32 (ap.word k).toNat)).length = 2 := by
      unfold signs
      rw [if_pos negative]
      rcases flag with sign | space
      · rw [if_pos sign]
        rfl
      · rw [if_pos space]
        split <;> rfl
    refine ⟨(if_pos type).trans both,?_⟩
    rw [Piece.text,conversionText,if_pos type,signedText,List.length_append,both]
    omega

theorem unchecked_le_one {p : Piece} (one : ¬p.TwoSigns ap false k) : p.unchecked ap false k ≤ 1 := by
  cases p with
  | plain c => exact Nat.zero_le 1
  | unfinished mods => exact Nat.zero_le 1
  | conversion mods ch =>
    rw [Piece.unchecked,Xprintf.unchecked]
    split
    swap
    · exact Nat.zero_le 1
    next type =>
    unfold signs
    split
    · next negative =>
      have clear : ¬((readModifiers false mods).flags.sign = true ∨ (readModifiers false mods).flags.space = true) :=
        fun flag => one ⟨type,negative,flag⟩
      rw [not_or] at clear
      rw [if_neg clear.1,if_neg clear.2]
      exact Nat.le_refl 1
    · split
      · exact Nat.le_refl 1
      · split
        · exact Nat.le_refl 1
        · exact Nat.zero_le 1

theorem clearFrom_cons (p : Piece) (rest : List Piece) (k : Nat) (w : Int) : ClearFrom size ap k w (p :: rest) ↔
    (p.TwoSigns ap false k → w ≠ size - 1) ∧
    ClearFrom size ap (k + p.arguments) (w + (p.text ap false k w).length) rest := by
  have shift : ∀ before, k + argumentsBefore (p :: before) = k + p.arguments + argumentsBefore before := by
    intro before
    simp only [argumentsBefore,List.map_cons,List.sum_cons]
    omega
  have later : ∀ before, w + (outputFrom ap false k w (p :: before)).length = w + (p.text ap false k w).length +
      (outputFrom ap false (k + p.arguments) (w + (p.text ap false k w).length) before).length := by
    intro before
    rw [outputFrom,List.length_append]
    omega
  constructor
  · intro clear
    constructor
    · intro two
      have first := clear [] p rest rfl two
      simpa [outputFrom] using first
    · rintro before q after rfl two
      rw [← later]
      apply clear (p :: before) q after rfl
      rwa [shift]
  · rintro ⟨first,others⟩ before q after split two
    cases before with
    | nil =>
      obtain ⟨rfl,rfl⟩ := List.cons.inj split
      simpa [outputFrom] using first two
    | cons head before =>
      obtain ⟨rfl,rfl⟩ := List.cons.inj split
      rw [shift] at two
      rw [later]
      exact others before q after rfl two

theorem clearFrom_full (full : size ≤ w) (k : Nat) (ps : List Piece) : ClearFrom size ap k w ps := by
  intro before p after _ _
  omega

/-- Either the complete output is cut to the room there is, or it passes it by one. -/
theorem execute_text (ps : List Piece) (k : Nat) {o x : Out} (fits : o.written ≤ size)
    (worked : execute size ap false ps k o = some x) :
    (ClearFrom size ap k o.written ps ∧
      x = o.puts (.none false) ((outputFrom ap false k o.written ps).take (size - o.written).toNat)) ∨
    (¬ClearFrom size ap k o.written ps ∧ x.text.length = o.text.length + (size + 1 - o.written).toNat) := by
  induction ps generalizing k o with
  | nil =>
    obtain rfl := Option.some.inj worked
    refine .inl ⟨?_,?_⟩
    · intro before p after split _
      simp at split
    · rw [outputFrom,List.take_nil]
      rfl
  | cons p rest ih =>
    by_cases room : o.written < size
    swap
    · rw [execute_full room] at worked
      obtain rfl := Option.some.inj worked
      refine .inl ⟨clearFrom_full (by omega) _ _,?_⟩
      rw [Int.toNat_eq_zero.mpr (by omega)]
      rfl
    rw [execute_cons room] at worked
    split at worked
    · contradiction
    by_cases overrun : p.TwoSigns ap false k ∧ o.written = size - 1
    · -- both signs are written where one fits
      obtain ⟨two,last⟩ := overrun
      obtain ⟨unchecked,long⟩ := two.unchecked o.written
      rw [unchecked,Nat.max_eq_right (by omega),execute_full (by rw [puts_written,List.length_take]; omega)] at worked
      obtain rfl := Option.some.inj worked
      refine .inr ⟨fun clear => ((clearFrom_cons p rest k o.written).mp clear).1 two last,?_⟩
      rw [puts_text rfl,List.length_append,List.length_take]
      omega
    have limit : max (size - o.written).toNat (p.unchecked ap false k) = (size - o.written).toNat := by
      by_cases two : p.TwoSigns ap false k
      · rw [(two.unchecked o.written).1]
        have : o.written ≠ size - 1 := fun last => overrun ⟨two,last⟩
        omega
      · have := unchecked_le_one two
        omega
    rw [limit] at worked
    have first : p.TwoSigns ap false k → o.written ≠ size - 1 := fun two last => overrun ⟨two,last⟩
    rw [clearFrom_cons,and_iff_right first,outputFrom,List.take_append]
    generalize whole : p.text ap false k o.written = text at *
    by_cases short : text.length ≤ (size - o.written).toNat
    · rw [List.take_of_length_le short] at worked ⊢
      have written : (o.puts (.none false) text).written = o.written + text.length := puts_written
      have next := ih _ (by rw [written]; omega) worked
      rw [written,puts_puts,puts_text rfl,List.length_append] at next
      rcases next with ⟨clear,final⟩ | ⟨overrun,final⟩
      · refine .inl ⟨clear,final.trans ?_⟩
        congr 3
        omega
      · refine .inr ⟨overrun,final.trans ?_⟩
        omega
    · have written : (o.puts (.none false) (text.take (size - o.written).toNat)).written = size := by
        rw [puts_written,List.length_take]
        omega
      rw [execute_full (by omega)] at worked
      refine .inl ⟨clearFrom_full (by omega) _ _,(Option.some.inj worked).symm.trans ?_⟩
      rw [Nat.sub_eq_zero_of_le (by omega),List.take_zero,List.append_nil]

theorem terminate_bounded (positive : 1 ≤ size) (complete : List UInt8) :
    Bounded size complete (terminate size false ((⟨[],0⟩ : Out).puts (.none false) (complete.take size.toNat))) := by
  have text : ((⟨[],0⟩ : Out).puts (.none false) (complete.take size.toNat)).text = complete.take size.toNat := puts_text rfl
  have written : ((⟨[],0⟩ : Out).puts (.none false) (complete.take size.toNat)).written =
      (complete.take size.toNat).length := by
    rw [puts_written]
    exact Int.zero_add _
  have length := List.length_take (i := size.toNat) (l := complete)
  have atEnd : (terminate size false ((⟨[],0⟩ : Out).puts (.none false) (complete.take size.toNat))).terminator =
      some (if ((complete.take size.toNat).length : Int) = size then (complete.take size.toNat).length - 1
        else (complete.take size.toNat).length) := by
    simp only [terminate,written,text]
    rfl
  refine ⟨?_,?_,?_,?_⟩
  · intro i writes
    rcases writes with stored | last
    · simp only [terminate,text] at stored
      omega
    · rw [atEnd,Option.some.injEq] at last
      split at last <;> omega
  · refine ⟨_,.inr atEnd,?_⟩
    rw [Result.byte,if_pos atEnd]
  · simp only [terminate,written]
    split
    · refine iff_of_true rfl ?_
      omega
    · constructor
      · omega
      · omega
  · intro whole
    simp only [terminate,written,text] at whole ⊢
    split at whole
    · contradiction
    · next notFull =>
      rw [if_neg notFull]
      refine ⟨List.take_of_length_le ?_,rfl⟩
      omega

end Buffer

/-- Formatted output stays in its buffer just when no two signs are written into the last byte
of it. -/
theorem vxnprintf_bounded (positive : 1 ≤ size) (returns : Returns size fmt ap false r) :
    Bounded size (output ap false (pieces fmt)) r ↔
      ∀ before p after, pieces fmt = before ++ p :: after → p.TwoSigns ap false (argumentsBefore before) →
        ((output ap false before).length : Int) ≠ size - 1 := by
  obtain ⟨o,worked,rfl⟩ := (returns_iff (by omega)).mp returns
  have cases := execute_text (pieces fmt) 0 (by simp; omega) worked
  simp only [ClearFrom,Nat.zero_add,Int.zero_add,Int.sub_zero] at cases
  rcases cases with ⟨clear,rfl⟩ | ⟨overrun,long⟩
  · exact iff_of_true (terminate_bounded positive _) clear
  · refine iff_of_false ?_ overrun
    intro bounded
    have last := bounded.inside size.toNat (.inl (by rw [terminate]; simp at long ⊢; omega))
    omega

/-- Five characters into a buffer of four bytes. -/
theorem vxnprintf_bounded_cut : Bounded 4 (output (number 0xfffffff4) false (pieces (chars "n=%d")))
    ⟨-1,chars "n=-1",some 3⟩ := by
  have returns : Returns 4 (chars "n=%d") (number 0xfffffff4) false ⟨-1,chars "n=-1",some 3⟩ := ⟨9,by decide +kernel⟩
  apply (vxnprintf_bounded (by decide) returns).mpr
  intro before p after split two
  have member : p ∈ pieces (chars "n=%d") := by
    rw [split]
    exact List.mem_append_right before List.mem_cons_self
  have only : pieces (chars "n=%d") = [.plain 110,.plain 61,.conversion [] 100] := by decide +kernel
  rw [only,List.mem_cons,List.mem_cons,List.mem_singleton] at member
  rcases member with rfl | rfl | rfl
  · contradiction
  · contradiction
  · rcases two.2.2 with flag | flag <;> contradiction

/-- The `'+'` goes behind the buffer, and the NUL behind it. -/
theorem vxnprintf_overrun : Returns 1 (chars "%+d") (number 0xffffffff) false ⟨2,chars "-+",some 2⟩ ∧
    ¬Bounded 1 (output (number 0xffffffff) false (pieces (chars "%+d"))) ⟨2,chars "-+",some 2⟩ := by
  refine ⟨⟨9,by decide +kernel⟩,?_⟩
  intro bounded
  have plus := bounded.inside 1 (.inl (by decide +kernel))
  contradiction

end Buenos.Lib.Xprintf
