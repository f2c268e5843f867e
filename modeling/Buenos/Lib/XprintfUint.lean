import Buenos.Lib.XprintfNumbers

/-! `print_uint` with its array: every digit, zero and blank is stored in `rev` and read from it,
an index outside the eleven bytes being an error, and the number can be read back from the text. -/
namespace Buenos.Lib.Xprintf

open Buenos.Foundation

/-! ### The code -/

/-- The length of `char rev[11]`. -/
def revLength : Nat := 11

/-- `rev[i] = c`, `none` outside the array. -/
def revStore (rev : Bytes) (i : Nat) (c : UInt8) : Option Bytes :=
  if i < revLength then some (Function.update rev i c) else none

/-- `rev[i]`, `none` outside the array. -/
def revLoad (rev : Bytes) (i : Nat) : Option UInt8 := if i < revLength then some (rev i) else none

/-- The `do` loop, with so many turns at most. `none` is also a loop that has not ended. -/
def revDigits (smalls : Bool) (base : Nat) : Nat → Bytes → Nat → Nat → Option (Bytes × Nat)
  | 0, _, _, _ => none
  | turns + 1, rev, i, n =>
    (revStore rev i (digit smalls (n % base))).bind fun rev =>
      if n / base = 0 then some (rev, i + 1) else revDigits smalls base turns rev (i + 1) (n / base)

/-- `while(i < prec) { rev[i] = '0'; i++; }`, and the same for the width. -/
def revPad (c : UInt8) : Nat → Bytes → Nat → Option (Bytes × Nat)
  | 0, rev, i => some (rev, i)
  | left + 1, rev, i => (revStore rev i c).bind fun rev => revPad c left rev (i + 1)

/-- The output loop, with `i` characters left, and the count that is returned. -/
def revOutput (flags : Flags) (size : Int) (rev : Bytes) : Nat → List UInt8 → Int → Option (List UInt8 × Int)
  | 0, text, written => some (text, written)
  | i + 1, text, written =>
    if written < size then
      (revLoad rev i).bind fun c => revOutput flags size rev i (printc text c flags) (written + 1)
    else some (text, written)

/-- `print_uint`, whose array `rev` is not initialised. A word has 32 digits at most in any base. -/
def printUintRev (rev : Bytes) (text : List UInt8) (size : Int) (n base : Nat) (flags : Flags) (prec width : Int) :
    Option (List UInt8 × Int) :=
  if size ≤ 0 then some (text, 0)
  else
    (revDigits flags.smalls base 32 rev 0 n).bind fun (rev, i) =>
    (revPad 48 (min prec 11 - i).toNat rev i).bind fun (rev, i) =>
    (revPad 32 (min width 11 - i).toNat rev i).bind fun (rev, i) =>
    revOutput flags size rev i text 0

/-! ### What is in the array -/

def Filled (rev : Bytes) (cs : List UInt8) : Prop := ∀ k < cs.length, rev k = cs.getD k 0

theorem Filled.store (filled : Filled rev cs) (room : cs.length < revLength) (c : UInt8) :
    ∃ rev', revStore rev cs.length c = some rev' ∧ Filled rev' (cs ++ [c]) := by
  refine ⟨_,if_pos room,fun k small => ?_⟩
  by_cases last : k = cs.length
  · rw [last,Function.update_self]
    simp
  · rw [List.length_append,List.length_singleton] at small
    rw [Function.update_of_ne last,filled k (by omega)]
    simp [List.getElem?_append_left (show k < cs.length by omega)]

theorem revDigits_filled (smalls : Bool) (base : Nat) (turns room n : Nat) (cs : List UInt8) (large : 1 < base)
    (filled : Filled rev cs) (fits : n < base ^ (room + 1)) (enough : room < turns)
    (inside : cs.length + room < revLength) :
    ∃ rev', revDigits smalls base turns rev cs.length n =
        some (rev', (cs ++ reversed smalls base (room + 1) n).length) ∧
      Filled rev' (cs ++ reversed smalls base (room + 1) n) := by
  induction room generalizing turns rev cs n with
  | zero =>
    obtain ⟨turns,rfl⟩ : ∃ m, turns = m + 1 := ⟨turns - 1,by omega⟩
    obtain ⟨rev',stored,more⟩ := filled.store (by omega) (digit smalls (n % base))
    rw [Nat.zero_add,Nat.pow_one] at fits
    have last : n / base = 0 := Nat.div_eq_of_lt fits
    refine ⟨rev',?_,?_⟩
    · rw [revDigits,stored,Option.bind_some,if_pos last,reversed,if_pos last,List.length_append,List.length_singleton]
    · rwa [reversed,if_pos last]
  | succ room ih =>
    obtain ⟨turns,rfl⟩ : ∃ m, turns = m + 1 := ⟨turns - 1,by omega⟩
    obtain ⟨rev',stored,more⟩ := filled.store (by omega) (digit smalls (n % base))
    rw [revDigits,stored,Option.bind_some,reversed]
    by_cases last : n / base = 0
    · rw [if_pos last,if_pos last]
      refine ⟨rev',?_,more⟩
      rw [List.length_append,List.length_singleton]
    · have shorter : n / base < base ^ (room + 1) := by
        rw [Nat.div_lt_iff_lt_mul (by omega)]
        exact fits
      have length : (cs ++ [digit smalls (n % base)]).length = cs.length + 1 := by simp
      obtain ⟨rev'',rest,full⟩ := ih turns (n / base) _ more shorter (by omega) (by omega)
      rw [if_neg last,if_neg last,List.append_cons]
      rw [length] at rest
      exact ⟨rev'',rest,full⟩

theorem revPad_filled (c : UInt8) (left : Nat) (cs : List UInt8) (filled : Filled rev cs)
    (inside : left = 0 ∨ cs.length + left ≤ revLength) :
    ∃ rev', revPad c left rev cs.length = some (rev', (cs ++ List.replicate left c).length) ∧
      Filled rev' (cs ++ List.replicate left c) := by
  induction left generalizing rev cs with
  | zero =>
    rw [List.replicate_zero,List.append_nil]
    exact ⟨rev,rfl,filled⟩
  | succ left ih =>
    obtain ⟨rev',stored,more⟩ := filled.store (by omega) c
    have length : (cs ++ [c]).length = cs.length + 1 := by simp
    obtain ⟨rev'',rest,full⟩ := ih _ more (by omega)
    rw [revPad,stored,Option.bind_some,List.replicate_succ,List.append_cons]
    rw [length] at rest
    exact ⟨rev'',rest,full⟩

theorem revOutput_filled (flags : Flags) (size : Int) (cs : List UInt8) (filled : Filled rev cs)
    (inside : cs.length ≤ revLength) (text : List UInt8) (written : Int) :
    revOutput flags size rev cs.length text written =
      some ((cs.reverse.take (size - written).toNat).foldl (fun text c => printc text c flags) text,
        written + (cs.reverse.take (size - written).toNat).length) := by
  induction cs using List.reverseRecOn generalizing text written with
  | nil => simp [revOutput]
  | append_singleton cs c ih =>
    rw [List.length_append,List.length_singleton] at inside ⊢
    have before : Filled rev cs := by
      intro k small
      rw [filled k (by rw [List.length_append]; omega)]
      simp [List.getElem?_append_left small]
    have last : rev cs.length = c := by
      rw [filled cs.length (by simp)]
      simp
    rw [revOutput,List.reverse_append,List.reverse_singleton,List.singleton_append]
    split
    · next room =>
      obtain ⟨m,left⟩ : ∃ m, (size - written).toNat = m + 1 := ⟨(size - written).toNat - 1,by omega⟩
      have next : (size - (written + 1)).toNat = m := by omega
      rw [revLoad,if_pos (by omega),Option.bind_some,last,ih before (by omega),left,next,List.take_succ_cons,
        List.foldl_cons,List.length_cons]
      congr 2
      omega
    · next full =>
      have left : (size - written).toNat = 0 := by omega
      rw [left]
      simp

theorem reversed_length (smalls : Bool) (base room n : Nat) : (reversed smalls base room n).length ≤ room := by
  induction room generalizing n with
  | zero => exact Nat.le_refl 0
  | succ room ih =>
    rw [reversed,List.length_cons]
    split
    · exact Nat.le_add_left 1 room
    · exact Nat.succ_le_succ (ih (n / base))

theorem pad_filled (c : UInt8) (upto : Int) (bound : upto ≤ revLength) (filled : Filled rev cs)
    (inside : cs.length ≤ revLength) :
    (∃ rev', revPad c (upto - cs.length).toNat rev cs.length = some (rev', (pad c upto cs).length) ∧
      Filled rev' (pad c upto cs)) ∧ (pad c upto cs).length ≤ revLength := by
  constructor
  · exact revPad_filled c _ cs filled (by omega)
  · rw [pad,List.length_append,List.length_replicate]
    omega

/-- No index leaves the array, and the characters of `uintText` go out. -/
theorem printUintRev_eq (rev : Bytes) (text : List UInt8) (size : Int) (base : Nat) (large : 8 ≤ base) (word : n < 2 ^ 32)
    (flags : Flags) (prec width : Int) :
    printUintRev rev text size n base flags prec width =
      some (((uintText flags n base prec width).take size.toNat).foldl (fun text c => printc text c flags) text,
        (((uintText flags n base prec width).take size.toNat).length : Int)) := by
  unfold printUintRev
  split
  · next none =>
    have left : size.toNat = 0 := by omega
    rw [left]
    rfl
  · have power : 8 ^ 11 ≤ base ^ 11 := Nat.pow_le_pow_left large 11
    have fits : n < base ^ (10 + 1) := Nat.lt_of_lt_of_le (by omega) power
    have empty : Filled rev [] := by
      intro k small
      exact absurd small (Nat.not_lt_zero k)
    obtain ⟨rev1,digits,filled1⟩ := revDigits_filled flags.smalls base 32 10 n [] (by omega) empty fits
      (by decide) (by decide)
    have inside1 : (reversed flags.smalls base 11 n).length ≤ revLength := reversed_length _ _ _ _
    obtain ⟨⟨rev2,zeros,filled2⟩,inside2⟩ := pad_filled 48 (min prec 11) (by unfold revLength; omega) filled1 inside1
    obtain ⟨⟨rev3,blanks,filled3⟩,inside3⟩ := pad_filled 32 (min width 11) (by unfold revLength; omega) filled2 inside2
    have out := revOutput_filled flags size _ filled3 inside3 text 0
    rw [Int.sub_zero,Int.zero_add] at out
    rw [List.nil_append] at digits zeros blanks
    rw [List.length_nil] at digits
    rw [digits,Option.bind_some]
    dsimp only
    rw [zeros,Option.bind_some]
    dsimp only
    rw [blanks,Option.bind_some]
    exact out

/-! ### Reading back -/

def digitValue (c : UInt8) : Option Nat :=
  if 48 ≤ c ∧ c ≤ 57 then some (c.toNat - 48)
  else if 65 ≤ c ∧ c ≤ 70 then some (c.toNat - 55)
  else if 97 ≤ c ∧ c ≤ 102 then some (c.toNat - 87)
  else none

def readDigit (base v : Nat) (c : UInt8) : Option Nat :=
  (digitValue c).bind fun d => if d < base then some (base * v + d) else none

/-- The number in a text: blanks, and then one digit or more. -/
def readNumber (base : Nat) (text : List UInt8) : Option Nat :=
  match text.dropWhile (· == 32) with
  | [] => none
  | c :: rest => (c :: rest).foldlM (readDigit base) 0

theorem digitValue_digit (smalls : Bool) (small : d < 16) : digitValue (digit smalls d) = some d := by
  have table : ∀ smalls : Bool, ∀ d < 16, digitValue (digit smalls d) = some d := by decide
  exact table smalls d small

theorem readDigit_digit (smalls : Bool) (hex : base ≤ 16) (small : d < base) (v : Nat) :
    readDigit base v (digit smalls d) = some (base * v + d) := by
  rw [readDigit,digitValue_digit smalls (by omega),Option.bind_some,if_pos small]

theorem read_digits (smalls : Bool) (hex : base ≤ 16) (ds : List Nat) (small : ∀ d ∈ ds, d < base) :
    ((ds.map (digit smalls)).reverse).foldlM (readDigit base) 0 = some (Nat.ofDigits base ds) := by
  induction ds with
  | nil => rfl
  | cons d ds ih =>
    rw [List.map_cons,List.reverse_cons,List.foldlM_append,ih fun e member => small e (List.mem_cons_of_mem d member)]
    change ([digit smalls d]).foldlM (readDigit base) (Nat.ofDigits base ds) = _
    rw [List.foldlM_cons,readDigit_digit smalls hex (small d List.mem_cons_self),Nat.ofDigits_cons,Nat.add_comm]
    rfl

theorem read_numeral (smalls : Bool) (large : 1 < base) (hex : base ≤ 16) (n : Nat) :
    (numeral smalls base n).foldlM (readDigit base) 0 = some n := by
  rw [numeral]
  split
  · next zero =>
    rw [List.foldlM_cons,readDigit_digit smalls hex (by omega),zero]
    rfl
  · rw [read_digits smalls hex _ fun d member => Nat.digits_lt_base large member,Nat.ofDigits_digits]

theorem read_zeros (positive : 0 < base) (m : Nat) (text : List UInt8) :
    (List.replicate m 48 ++ text).foldlM (readDigit base) 0 = text.foldlM (readDigit base) 0 := by
  induction m with
  | zero => rfl
  | succ m ih =>
    have zero : readDigit base 0 48 = some 0 := by
      rw [readDigit,show digitValue 48 = some 0 by decide,Option.bind_some,if_pos positive,Nat.mul_zero]
    rw [List.replicate_succ,List.cons_append,List.foldlM_cons,zero]
    exact ih

theorem readNumber_blanks (k : Nat) (nonempty : text ≠ []) (value : text.foldlM (readDigit base) 0 = some n) :
    readNumber base (List.replicate k 32 ++ text) = some n := by
  cases text with
  | nil => contradiction
  | cons c rest =>
    have digit : ¬(c == 32) = true := by
      intro blank
      rw [beq_iff_eq.mp blank,List.foldlM_cons,readDigit,show digitValue 32 = none by decide] at value
      contradiction
    have blanks : ∀ a ∈ List.replicate k (32 : UInt8), (a == 32) = true := by
      intro a member
      rw [List.eq_of_mem_replicate member]
      rfl
    have rest : (List.replicate k 32 ++ c :: rest).dropWhile (· == 32) = c :: rest := by
      rw [List.dropWhile_append_of_pos blanks]
      exact List.dropWhile_cons_of_neg digit
    rw [readNumber,rest]
    exact value

/-- A padded numeral reads as its number. -/
theorem readNumber_padded (smalls : Bool) (large : 1 < base) (hex : base ≤ 16) (n zeros blanks : Nat) :
    readNumber base (((numeral smalls base n).leftpad zeros 48).leftpad blanks 32) = some n := by
  have positive := numeral_length_pos smalls base n large
  apply readNumber_blanks
  · intro none
    have length := congrArg List.length none
    rw [List.leftpad,List.length_append,List.length_nil] at length
    omega
  · rw [List.leftpad,read_zeros (by omega),read_numeral smalls large hex]

/-! ### The result -/

theorem puts_printc (flags : Flags) (o : Out) (cs : List UInt8) :
    (o.puts flags cs).text = cs.foldl (fun text c => printc text c flags) o.text := by
  induction cs generalizing o with
  | nil => rfl
  | cons c rest ih =>
    rw [Out.puts,List.foldl_cons,← Out.puts,ih]
    rfl

/-- The array version is `printUint`, which counts on from what was written before. -/
theorem printUintRev_printUint (rev : Bytes) (o : Out) (size : Int) (base : Nat) (large : 8 ≤ base) (word : n < 2 ^ 32)
    (flags : Flags) (prec width : Int) : printUintRev rev o.text size n base flags prec width =
      some ((printUint o size n base flags prec width).text,
        (printUint o size n base flags prec width).written - o.written) := by
  rw [printUintRev_eq rev o.text size base large word,printUint_puts,puts_printc,puts_written]
  congr 2
  omega

/-- The terminal and the buffer get the same, as long as there is no NUL. -/
theorem foldl_printc (flags : Flags) (text : List UInt8) (nonzero : ∀ c ∈ cs, c ≠ 0) :
    cs.foldl (fun text c => printc text c flags) text = text ++ cs := by
  induction cs generalizing text with
  | nil => simp
  | cons c rest ih =>
    have shown : printc text c flags = text ++ [c] := by
      simp [printc,nonzero c List.mem_cons_self]
    rw [List.foldl_cons,shown,ih _ fun d member => nonzero d (List.mem_cons_of_mem c member),List.append_assoc]
    rfl

theorem numeral_nonzero (large : 1 < base) (hex : base ≤ 16) (member : c ∈ numeral smalls base n) : c ≠ 0 := by
  have table : ∀ smalls : Bool, ∀ d < 16, digit smalls d ≠ 0 := by decide
  rw [numeral] at member
  split at member
  · rw [List.mem_singleton.mp member]
    exact table smalls 0 (by decide)
  · obtain ⟨d,there,rfl⟩ := List.mem_map.mp (List.mem_reverse.mp member)
    exact table smalls d (Nat.lt_of_lt_of_le (Nat.digits_lt_base large there) hex)

theorem leftpad_nonzero (pad_ : p ≠ 0) (nonzero : ∀ c ∈ cs, c ≠ 0) : ∀ c ∈ List.leftpad k p cs, c ≠ (0 : UInt8) := by
  intro c member
  rcases List.mem_append.mp member with padding | inside
  · rw [List.eq_of_mem_replicate padding]
    exact pad_
  · exact nonzero c inside

/-- `print_uint` stays in its array, outputs as much of the padded numeral as there is room for
and returns how much that is; a text that is not cut reads as the number. -/
theorem print_uint_correct (rev : Bytes) (text : List UInt8) (size : Int) (n : UInt32) (base : Nat)
    (known : base = 8 ∨ base = 10 ∨ base = 16) (flags : Flags) (prec width : Int) :
    ∃ string written,
      string = ((numeral flags.smalls base n.toNat).leftpad (min prec 11).toNat 48).leftpad (min width 11).toNat 32 ∧
      printUintRev rev text size n.toNat base flags prec width = some (text ++ string.take size.toNat, written) ∧
      written = (string.take size.toNat).length ∧
      (string.length ≤ size → readNumber base (string.take size.toNat) = some n.toNat) := by
  refine ⟨_,_,rfl,?_,rfl,?_⟩
  · have limits : ∀ p : Int, (min p 11).toNat = min p.toNat 11 := by omega
    have nonzero : ∀ c ∈ uintText flags n.toNat base prec width, c ≠ 0 := by
      rw [uintText_eq flags n.toNat base (by omega) n.toNat_lt]
      apply leftpad_nonzero (by decide)
      apply leftpad_nonzero (by decide)
      intro c
      exact numeral_nonzero (by omega) (by omega)
    rw [limits,limits,← uintText_eq flags n.toNat base (by omega) n.toNat_lt,
      printUintRev_eq rev text size base (by omega) n.toNat_lt,
      foldl_printc flags text fun c member => nonzero c (List.mem_of_mem_take member)]
  · intro enough
    rw [List.take_of_length_le (by omega)]
    exact readNumber_padded flags.smalls (by omega) (by omega) n.toNat _ _

/-- The longest numeral: a word of ones in octal. -/
theorem print_uint_correct_octal : ∃ string written,
    string = ((numeral false 8 4294967295).leftpad (min (20 : Int) 11).toNat 48).leftpad (min (-1 : Int) 11).toNat 32 ∧
    printUintRev (fun _ => 0) [] 11 4294967295 8 (.none true) 20 (-1) = some ([] ++ string.take 11, written) ∧
    written = (string.take 11).length ∧ (string.length ≤ (11 : Int) → readNumber 8 (string.take 11) = some 4294967295) :=
  print_uint_correct (fun _ => 0) [] 11 4294967295 8 (.inl rfl) (.none true) 20 (-1)

end Buenos.Lib.Xprintf
