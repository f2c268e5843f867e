import Buenos.Lib.XprintfNumbers
import Mathlib.Data.List.DropRight

/-! What width and precision make of a number. -/
namespace Buenos.Lib.Xprintf

open Buenos.Foundation

def decimalValue (digits : List UInt8) : Nat := digits.foldl (fun v c => 10 * v + (c.toNat - 48)) 0

/-- A decimal numeral for an `int`. -/
structure Numeral where
  digits : List UInt8
  nonempty : digits ≠ []
  decimal : ∀ c ∈ digits, 48 ≤ c ∧ c ≤ 57
  small : decimalValue digits < 2 ^ 31

/-- `%[0][w][.p]c` for an unsigned argument. -/
structure UnsignedFormat where
  zero : Bool
  width : Option Numeral
  prec : Option Numeral
  type : UInt8
  leading : ∀ w ∈ width, w.digits.head? ≠ some 48
  known : type ∈ ['u','o','x','X'].map Char.toUInt8

namespace UnsignedFormat

def mods (c : UnsignedFormat) : List UInt8 :=
  (if c.zero then ['0'.toUInt8] else []) ++ ((c.width.map Numeral.digits).getD [] ++
    (c.prec.map fun p => '.'.toUInt8 :: p.digits).getD [])

def format (c : UnsignedFormat) : List UInt8 := '%'.toUInt8 :: (c.mods ++ [c.type])

def base (c : UnsignedFormat) : Nat :=
  if c.type = 'u'.toUInt8 then 10 else if c.type = 'o'.toUInt8 then 8 else 16

/-- What they say; 0 if there is none. -/
def w (c : UnsignedFormat) : Nat := (c.width.map fun w => decimalValue w.digits).getD 0
def p (c : UnsignedFormat) : Nat := (c.prec.map fun p => decimalValue p.digits).getD 0

def numeral (c : UnsignedFormat) (n : UInt32) : List UInt8 :=
  Xprintf.numeral (c.type = 'x'.toUInt8) c.base n.toNat

def expected (c : UnsignedFormat) (n : UInt32) : List UInt8 :=
  ((c.numeral n).leftpad (min (if c.zero then max c.p c.w else c.p) 11) 48).leftpad (min c.w 11) 32

/-- In every buffer that is large enough, the output is the expected one and nothing else. -/
def Honoured (c : UnsignedFormat) : Prop :=
  ∀ (ap : Arguments) (size : Int), ((c.expected (ap.word 0)).length : Int) < size →
    Returns size c.format ap false
      ⟨(c.expected (ap.word 0)).length,c.expected (ap.word 0),some (c.expected (ap.word 0)).length⟩

end UnsignedFormat

/-! ### Padding -/

/-- The least numbers of digits and of characters, for a precision and a width. -/
def leastChars (prec width : Nat) : Nat × Nat :=
  (max 1 (min prec 11), max (max 1 (min prec 11)) (min width 11))

/-- What the modifiers ask for as they are read, and as they are written. -/
def Modifiers.asked (m : Modifiers) : Nat × Nat :=
  leastChars (if m.prec < m.width ∧ m.flags.zeropad then m.width else m.prec).toNat m.width.toNat
def UnsignedFormat.asked (c : UnsignedFormat) : Nat × Nat := leastChars (if c.zero then max c.p c.w else c.p) c.w

theorem leastChars_absorb (le : w ≤ p) : leastChars p w = (max 1 (min p 11), max 1 (min p 11)) := by
  have absorbed : max (max 1 (min p 11)) (min w 11) = max 1 (min p 11) := Nat.max_eq_left (by omega)
  exact Prod.ext rfl absorbed

theorem leastDigits_max (p w : Nat) : max 1 (min (max p w) 11) = max (max 1 (min p 11)) (min w 11) := by
  omega

theorem leftpad_eq (a b : Nat) (c : UInt8) {l : List UInt8} (most : max k a = max k b) (long : k ≤ l.length) :
    l.leftpad a c = l.leftpad b c := by
  simp only [List.leftpad]
  rw [show a - l.length = b - l.length by omega]

/-- The paddings agree for all numbers if they do for 0. -/
theorem leftpads_eq_iff (smalls : Bool) (base : Nat) (large : 1 < base) (prec width prec' width' : Nat) :
    (∀ n : UInt32, ((numeral smalls base n.toNat).leftpad (min prec 11) 48).leftpad (min width 11) 32 =
        ((numeral smalls base n.toNat).leftpad (min prec' 11) 48).leftpad (min width' 11) 32) ↔
      leastChars prec width = leastChars prec' width' := by
  simp only [leastChars,Prod.mk.injEq]
  constructor
  · intro all
    have zero := all 0
    have count : ∀ prec width, ((numeral smalls base (0 : UInt32).toNat).leftpad prec 48 |>.leftpad width 32).count 48 =
        max 1 prec := by
      intro prec width
      simp [numeral,digit,List.leftpad,List.count_append,List.count_replicate]
      omega
    have digits := congrArg (List.count 48) zero
    rw [count,count] at digits
    have lengths := congrArg List.length zero
    simp only [List.length_leftpad,numeral,if_true,UInt32.toNat_zero,List.length_singleton] at lengths
    generalize min prec 11 = a,min prec' 11 = b,min width 11 = c,min width' 11 = d at *
    omega
  · rintro ⟨digits,chars⟩ n
    have one := numeral_length_pos smalls base n.toNat large
    rw [leftpad_eq _ _ _ digits one]
    apply leftpad_eq _ _ _ (k := max 1 (min prec' 11))
    · rw [← chars,digits]
    · simp only [List.length_leftpad]
      omega

/-- A field that is given, or -1. -/
def Field.Reads (value : Int) (n : Nat) : Prop := value = n ∨ value = -1 ∧ n = 0

theorem asked_eq (m : Modifiers) (prec : Field.Reads m.prec p) (width : Field.Reads m.width w) :
    m.asked = leastChars (if m.flags.zeropad then max p w else p) w := by
  have wide : m.width.toNat = w := by
    rcases width with width | width <;> omega
  have least : (if m.prec < m.width ∧ m.flags.zeropad then m.width else m.prec).toNat =
      if m.flags.zeropad then max p w else p := by
    rcases prec with prec | prec <;> rcases width with width | width <;> split <;> split <;> grind
  rw [Modifiers.asked,wide,least]

/-! ### The digits as they are read -/

theorem readChar_flags (r : Reading) (c : UInt8) : (readChar r c).modifiers.flags.smalls = r.modifiers.flags.smalls ∧
    (c ≠ '#'.toUInt8 → (readChar r c).modifiers.flags.alt = r.modifiers.flags.alt) := by
  unfold readChar
  split
  · split <;> exact ⟨rfl,fun _ => rfl⟩
  · split
    · exact ⟨rfl,fun _ => rfl⟩
    · simp only [setFlag]
      split
      · next hash => exact ⟨rfl,fun other => absurd hash other⟩
      · repeat' split
        all_goals exact ⟨rfl,fun _ => rfl⟩

theorem readModifiers_flags (noHash : '#'.toUInt8 ∉ mods) :
    (readModifiers tty mods).flags.smalls = false ∧ (readModifiers tty mods).flags.alt = false := by
  have kept : ∀ (mods : List UInt8) (r : Reading), '#'.toUInt8 ∉ mods →
      (mods.foldl readChar r).modifiers.flags.smalls = r.modifiers.flags.smalls ∧
      (mods.foldl readChar r).modifiers.flags.alt = r.modifiers.flags.alt := by
    intro mods
    induction mods with
    | nil => exact fun _ _ => ⟨rfl,rfl⟩
    | cons c rest ih =>
      intro r noHash
      rw [List.mem_cons,not_or] at noHash
      obtain ⟨smalls,alt⟩ := ih (readChar r c) noHash.2
      obtain ⟨smalls',alt'⟩ := readChar_flags r c
      exact ⟨smalls.trans smalls',alt.trans (alt' (Ne.symm noHash.1))⟩
  exact kept mods _ noHash

/-- A number that fits is what its digits say. -/
theorem foldl_addDigit (decimal : ∀ c ∈ l, (48 : UInt8) ≤ c ∧ c ≤ 57) (small : decimalValue l < 2 ^ 31) :
    l.foldl addDigit 0 = decimalValue l := by
  have value : ∀ (l : List UInt8) (v : Nat), (∀ c ∈ l, (48 : UInt8) ≤ c ∧ c ≤ 57) →
      l.foldl (fun (v : Int) c => 10 * v + 1 * (c.toNat - 48)) v =
        (l.foldl (fun v c => 10 * v + (c.toNat - 48)) v : Nat) := by
    intro l
    induction l with
    | nil => exact fun _ _ => rfl
    | cons c rest ih =>
      intro v decimal
      have low : 48 ≤ c.toNat := UInt8.le_iff_toNat_le.mp (decimal c List.mem_cons_self).1
      rw [List.foldl_cons,List.foldl_cons,← ih _ fun d member => decimal d (List.mem_cons_of_mem c member)]
      congr 1
      omega
  have wrapped := foldl_wrap 1 0 l
  have zero : wrap 0 = 0 := rfl
  have same : (fun (v : Int) (c : UInt8) => wrap (10 * v + 1 * (c.toNat - 48))) = addDigit := by
    funext v c
    rw [addDigit,Int.one_mul]
  rw [zero,same] at wrapped
  rw [wrapped]
  have exact_ := value l 0 decimal
  rw [Int.natCast_zero] at exact_
  rw [exact_]
  apply wrap_small
  · omega
  · unfold decimalValue at small
    omega

/-- The digits before the first `'0'`, and the last ones that stand together. -/
def firstRun (digits : List UInt8) : List UInt8 := digits.takeWhile (· != 48)
def lastRun (digits : List UInt8) : List UInt8 := (digits.rdropWhile (· == 48)).rtakeWhile (· != 48)

theorem decimalValue_append (l m : List UInt8) :
    decimalValue l ≤ decimalValue (l ++ m) ∧ decimalValue m ≤ decimalValue (l ++ m) := by
  have more : ∀ (m : List UInt8) (v v' : Nat), v ≤ v' →
      v ≤ m.foldl (fun v c => 10 * v + (c.toNat - 48)) v' ∧
      m.foldl (fun v c => 10 * v + (c.toNat - 48)) v ≤ m.foldl (fun v c => 10 * v + (c.toNat - 48)) v' := by
    intro m
    induction m with
    | nil => exact fun v v' le => ⟨le,le⟩
    | cons c rest ih =>
      intro v v' le
      simp only [List.foldl_cons]
      exact ⟨(ih v _ (by omega)).1,(ih _ _ (by omega)).2⟩
  unfold decimalValue
  rw [List.foldl_append]
  exact ⟨(more m _ _ (Nat.le_refl _)).1,(more m _ _ (Nat.zero_le _)).2⟩

theorem decimalValue_part_le (part : l <:+: m) : decimalValue l ≤ decimalValue m := by
  obtain ⟨before,after,rfl⟩ := part
  exact (decimalValue_append before l).2.trans (decimalValue_append _ after).1

theorem lastRun_part (digits : List UInt8) : lastRun digits <:+: digits :=
  List.IsInfix.trans (List.rtakeWhile_suffix _ _).isInfix (List.rdropWhile_prefix _ _).isInfix

theorem lastRun_snoc (digits : List UInt8) (d : UInt8) :
    lastRun (digits ++ [d]) = if d = 48 then lastRun digits else digits.rtakeWhile (· != 48) ++ [d] := by
  unfold lastRun
  split
  · next zero => rw [List.rdropWhile_concat_pos _ _ _ (by simpa using zero)]
  · next nonzero =>
    rw [List.rdropWhile_concat_neg _ _ _ (by simpa using nonzero),List.rtakeWhile_concat_pos _ _ _ (by simpa using nonzero)]

theorem readChar_zero (r : Reading) : readChar r 48 = ⟨{ r.modifiers with flags.zeropad := true },.new⟩ := rfl

theorem foldl_readChar_digits {digits : List UInt8} (m : Modifiers) (small : ∀ d ∈ digits, (48 : UInt8) ≤ d ∧ d < 57) :
    digits.foldl readChar ⟨m,.new⟩ =
      ⟨{ m with
          flags.zeropad := m.flags.zeropad || decide (48 ∈ digits)
          width := if lastRun digits = [] then m.width else (lastRun digits).foldl addDigit 0 },
        if digits.rtakeWhile (· != 48) = [] then .new else .width⟩ := by
  induction digits using List.reverseRecOn with
  | nil => simp [lastRun]
  | append_singleton digits d ih =>
    rw [List.foldl_append,ih fun e member => small e (List.mem_append_left _ member),List.foldl_cons,List.foldl_nil,
      lastRun_snoc,List.rtakeWhile_concat]
    by_cases zero : d = 48
    · subst zero
      simp [readChar_zero]
    · obtain ⟨low,high⟩ := small d (by simp)
      have digit : scanned d = true := by
        simp only [scanned,decide_eq_true_eq]
        exact ⟨UInt8.lt_of_le_of_ne low (Ne.symm zero),high⟩
      by_cases fresh : digits.rtakeWhile (· != 48) = []
      · simp [readChar,digit,zero,fresh,Ne.symm zero]
      · have current : lastRun digits = digits.rtakeWhile (· != 48) := by
          have last : digits.rdropWhile (· == 48) = digits := by
            rw [List.rdropWhile_eq_self_iff]
            intro nonempty zero
            apply fresh
            rw [List.rtakeWhile_eq_nil_iff]
            intro _
            simpa using zero
          rw [lastRun,last]
        simp [readChar,digit,zero,fresh,current,List.foldl_append,Ne.symm zero]

theorem reads_run (part : l <:+: digits) (decimal : ∀ d ∈ digits, (48 : UInt8) ≤ d ∧ d ≤ 57)
    (small : decimalValue digits < 2 ^ 31) : l.foldl addDigit 0 = decimalValue l :=
  foldl_addDigit (fun d member => decimal d (part.subset member)) ((decimalValue_part_le part).trans_lt small)

theorem lastRun_reads (decimal : ∀ d ∈ digits, (48 : UInt8) ≤ d ∧ d ≤ 57) (small : decimalValue digits < 2 ^ 31) :
    Field.Reads (if lastRun digits = [] then -1 else (lastRun digits).foldl addDigit 0) (decimalValue (lastRun digits)) := by
  split
  · next empty =>
    rw [empty]
    exact .inr ⟨rfl,rfl⟩
  · exact .inl (reads_run (lastRun_part digits) decimal small)

theorem readChar_point (r : Reading) : readChar r '.'.toUInt8 = ⟨{ r.modifiers with prec := 0 },.prec⟩ := rfl

theorem takeWhile_scanned (small : ∀ d ∈ digits, (48 : UInt8) ≤ d ∧ d < 57) :
    digits.takeWhile scanned = firstRun digits ∧ digits.dropWhile scanned = digits.dropWhile (· != 48) := by
  induction digits with
  | nil => exact ⟨rfl,rfl⟩
  | cons d rest ih =>
    obtain ⟨take,drop⟩ := ih fun e member => small e (List.mem_cons_of_mem d member)
    obtain ⟨low,high⟩ := small d List.mem_cons_self
    by_cases zero : d = 48
    · subst zero
      exact ⟨rfl,rfl⟩
    · have digit : scanned d = true := decide_eq_true ⟨UInt8.lt_of_le_of_ne low (Ne.symm zero),high⟩
      have nonzero : (d != 48) = true := bne_iff_ne.mpr zero
      rw [List.takeWhile_cons_of_pos digit,List.dropWhile_cons_of_pos digit,firstRun,
        List.takeWhile_cons_of_pos (p := (· != 48)) nonzero,List.dropWhile_cons_of_pos (p := (· != 48)) nonzero,take,drop]
      exact ⟨rfl,rfl⟩

theorem zero_mem_dropWhile (digits : List UInt8) : 48 ∈ digits.dropWhile (· != 48) ↔ 48 ∈ digits := by
  induction digits with
  | nil => rfl
  | cons d rest ih =>
    by_cases zero : d = 48
    · subst zero
      exact Iff.rfl
    · rw [List.dropWhile_cons_of_pos (p := (· != 48)) (bne_iff_ne.mpr zero),ih,List.mem_cons]
      exact (or_iff_right (Ne.symm zero)).symm

/-! ### Width and precision -/

namespace UnsignedFormat
variable (c : UnsignedFormat)

theorem mods_cases (member : d ∈ c.mods) : d = '.'.toUInt8 ∨ 48 ≤ d ∧ d ≤ 57 := by
  rcases List.mem_append.mp member with zero | rest
  · split at zero
    · rw [List.mem_singleton.mp zero]
      exact .inr ⟨by decide,by decide⟩
    · contradiction
  rcases List.mem_append.mp rest with width | prec
  · cases given : c.width with
    | none =>
      rw [given] at width
      contradiction
    | some w =>
      rw [given] at width
      exact .inr (w.decimal d width)
  · cases given : c.prec with
    | none =>
      rw [given] at prec
      contradiction
    | some p =>
      rw [given] at prec
      rcases List.mem_cons.mp prec with point | digit
      · exact .inl point
      · exact .inr (p.decimal d digit)

theorem mods_modifier (member : d ∈ c.mods) : isModifier d = true := by
  rcases c.mods_cases member with rfl | ⟨low,high⟩
  · decide
  · by_cases zero : d = '0'.toUInt8
    · rw [zero]
      decide
    · have one : '1'.toUInt8 ≤ d := by
        have nonzero : d.toNat ≠ 48 := fun same => zero (UInt8.toNat_inj.mp same)
        have := UInt8.le_iff_toNat_le.mp low
        rw [UInt8.le_iff_toNat_le]
        change 49 ≤ d.toNat
        change 48 ≤ d.toNat at this
        omega
      have nine : d ≤ '9'.toUInt8 := high
      simp [isModifier,one,nine]

theorem no_hash : '#'.toUInt8 ∉ c.mods := by
  intro member
  rcases c.mods_cases member with point | ⟨low,_⟩
  · revert point
    decide
  · revert low
    decide

theorem type_cases : c.type = 'u'.toUInt8 ∨ c.type = 'o'.toUInt8 ∨ c.type = 'x'.toUInt8 ∨ c.type = 'X'.toUInt8 := by
  simpa using c.known

theorem pieces_format : pieces c.format = [.conversion c.mods c.type] := by
  have ends : Ends [c.type] := by
    intro d head
    cases head
    rcases c.type_cases with type | type | type | type <;> rw [type] <;> decide
  rw [format,pieces,piecesFrom,if_pos rfl,piecesFrom_some ends [] c.mods fun _ => c.mods_modifier]
  rfl

theorem base_large : 8 ≤ c.base := by
  unfold base
  split
  · decide
  · split <;> decide

theorem conversionText_format (ap : Arguments) (m : Modifiers) (plain : m.flags.smalls = false ∧ m.flags.alt = false) :
    conversionText ap 0 0 c.type m = ((c.numeral (ap.word 0)).leftpad
      (min (if m.prec < m.width ∧ m.flags.zeropad then m.width else m.prec).toNat 11) 48).leftpad
        (min m.width.toNat 11) 32 := by
  obtain ⟨smalls,alt⟩ := plain
  have word := (ap.word 0).toNat_lt
  rcases c.type_cases with type | type | type | type
  · have text : conversionText ap 0 0 c.type m = unsignedText m (ap.word 0) 10 := by rw [type]; rfl
    rw [text,unsignedText,uintText_eq _ _ _ (by decide) word,smalls,numeral,base,type]
    rfl
  · have text : conversionText ap 0 0 c.type m = unsignedText m (ap.word 0) 8 := by rw [type]; rfl
    rw [text,unsignedText,uintText_eq _ _ _ (by decide) word,smalls,numeral,base,type]
    rfl
  · have text : conversionText ap 0 0 c.type m = hexText { m with flags.smalls := true } (ap.word 0) := by rw [type]; rfl
    rw [text,hexText,if_neg (by simp [alt]),unsignedText,uintText_eq _ _ _ (by decide) word,numeral,base,type]
    rfl
  · have text : conversionText ap 0 0 c.type m = hexText m (ap.word 0) := by rw [type]; rfl
    rw [text,hexText,if_neg (by simp [alt]),unsignedText,uintText_eq _ _ _ (by decide) word,smalls,numeral,base,type]
    rfl

theorem unchecked_format (ap : Arguments) (m : Modifiers) : unchecked ap 0 c.type m = 0 := by
  apply if_neg
  rcases c.type_cases with type | type | type | type <;> rw [type] <;> decide

/-- The conversion is honoured just when the modifiers read ask for the padding that was written. -/
theorem honoured_iff_asked (c : UnsignedFormat) :
    c.Honoured ↔ '9'.toUInt8 ∉ c.mods ∧ (readModifiers false c.mods).asked = c.asked := by
  by_cases nine : '9'.toUInt8 ∈ c.mods
  · refine iff_of_false ?_ fun both => both.1 nine
    intro honoured
    have returns := honoured (number 0) ((c.expected 0).length + 1) (Int.lt_succ _)
    obtain ⟨o,worked,_⟩ := (returns_iff (by omega)).mp returns
    rw [c.pieces_format,execute_cons (by simp only; omega),Piece.mods,if_pos nine] at worked
    contradiction
  rw [and_iff_right nine,Modifiers.asked,UnsignedFormat.asked,← leftpads_eq_iff (c.type = 'x'.toUInt8) c.base
    (by have := c.base_large; omega)]
  have read := fun ap => c.conversionText_format ap (readModifiers false c.mods) (readModifiers_flags c.no_hash)
  constructor
  · intro honoured n
    generalize text : ((c.numeral n).leftpad _ 48).leftpad (min (readModifiers false c.mods).width.toNat 11) 32 = t at *
    have returns := honoured (number n) (t.length + (c.expected n).length + 1) (by simp only [number]; omega)
    have only := (returns_conversion c.pieces_format nine ((read (number n)).trans text) (by omega)
      (by rw [c.unchecked_format]; omega)).mp returns
    exact text.trans (congrArg Result.text only)
  · intro same ap size enough
    have text := (read ap).trans (same (ap.word 0))
    exact (returns_conversion c.pieces_format nine text enough (by rw [c.unchecked_format]; omega)).mpr rfl

def wDigits (c : UnsignedFormat) : List UInt8 := (c.width.map Numeral.digits).getD []
def pDigits (c : UnsignedFormat) : List UInt8 := (c.prec.map Numeral.digits).getD []

/-- The precision up to its first `'0'`, and the last number that stands on its own behind a flag,
or at the start of the width. -/
def first (c : UnsignedFormat) : Nat := decimalValue (firstRun c.pDigits)
def last (c : UnsignedFormat) : Nat :=
  decimalValue (if lastRun (c.pDigits.dropWhile (· != 48)) = [] then lastRun c.wDigits
    else lastRun (c.pDigits.dropWhile (· != 48)))

theorem wDigits_decimal : ∀ d ∈ c.wDigits, 48 ≤ d ∧ d ≤ 57 := by
  unfold wDigits
  cases c.width with
  | none => exact fun d member => absurd member List.not_mem_nil
  | some w => exact w.decimal

theorem pDigits_decimal : ∀ d ∈ c.pDigits, 48 ≤ d ∧ d ≤ 57 := by
  unfold pDigits
  cases c.prec with
  | none => exact fun d member => absurd member List.not_mem_nil
  | some p => exact p.decimal

theorem w_eq : c.w = decimalValue c.wDigits ∧ decimalValue c.wDigits < 2 ^ 31 := by
  unfold w wDigits
  cases c.width with
  | none => exact ⟨rfl,by decide⟩
  | some w => exact ⟨rfl,w.small⟩

theorem p_eq : c.p = decimalValue c.pDigits ∧ decimalValue c.pDigits < 2 ^ 31 := by
  unfold p pDigits
  cases c.prec with
  | none => exact ⟨rfl,by decide⟩
  | some p => exact ⟨rfl,p.small⟩

theorem nine_iff : '9'.toUInt8 ∈ c.mods ↔ 57 ∈ c.wDigits ∨ 57 ∈ c.pDigits := by
  have zero : ('9'.toUInt8 ∈ if c.zero then ['0'.toUInt8] else []) ↔ False := by
    split
    · decide
    · exact iff_of_false List.not_mem_nil id
  have prec : ('9'.toUInt8 ∈ (c.prec.map fun p => '.'.toUInt8 :: p.digits).getD []) ↔ 57 ∈ c.pDigits := by
    unfold pDigits
    cases c.prec with
    | none => rfl
    | some p => exact List.mem_cons.trans (or_iff_right (by decide))
  rw [mods,List.mem_append,List.mem_append,zero,false_or,prec]
  rfl

/-- What the modifier loop makes of the digits if none is a `'9'`. -/
theorem readModifiers_asked (width : 57 ∉ c.wDigits) (prec : 57 ∉ c.pDigits) :
    (readModifiers false c.mods).asked =
      leastChars (if c.zero ∨ 48 ∈ c.wDigits ∨ 48 ∈ c.pDigits then max c.first c.last else c.first) c.last := by
  have less : ∀ {l : List UInt8}, (∀ d ∈ l, 48 ≤ d ∧ d ≤ 57) → 57 ∉ l → ∀ d ∈ l, 48 ≤ d ∧ d < 57 := by
    intro l decimal no d member
    exact ⟨(decimal d member).1,UInt8.lt_of_le_of_ne (decimal d member).2 fun nine => no (nine ▸ member)⟩
  have small := less c.pDigits_decimal prec
  have wide := lastRun_reads c.wDigits_decimal c.w_eq.2
  have start : readModifiers false c.mods = readFrom ⟨{ Flags.none false with zeropad := c.zero },-1,-1⟩ .new
      (c.wDigits ++ (c.prec.map fun p => '.'.toUInt8 :: p.digits).getD []) := by
    rw [readModifiers,mods,wDigits]
    cases c.zero <;> rfl
  rw [start,readFrom,List.foldl_append,foldl_readChar_digits _ (less c.wDigits_decimal width)]
  cases given : c.prec with
  | none =>
    have none : c.pDigits = [] := by rw [pDigits,given]; rfl
    have first : c.first = 0 := by rw [UnsignedFormat.first,none]; rfl
    have last : c.last = decimalValue (lastRun c.wDigits) := by
      rw [UnsignedFormat.last,none]
      exact congrArg decimalValue (if_pos rfl)
    rw [← last] at wide
    refine (asked_eq _ (p := c.first) (.inr ⟨rfl,first⟩) wide).trans ?_
    simp [none]
  | some p =>
    have digits : c.pDigits = p.digits := by rw [pDigits,given]; rfl
    have rest : c.pDigits.dropWhile (· != 48) <:+: c.pDigits := (List.dropWhile_suffix _).isInfix
    have number := reads_run (List.takeWhile_prefix (· != 48)).isInfix c.pDigits_decimal c.p_eq.2
    have later := lastRun_reads (fun d member => c.pDigits_decimal d (rest.subset member))
      ((decimalValue_part_le rest).trans_lt c.p_eq.2)
    obtain ⟨take,drop⟩ := takeWhile_scanned small
    rw [Option.map_some,Option.getD_some,List.foldl_cons,readChar_point,← readFrom,← digits,(readFrom_digits _ _).2,
      take,drop,readFrom,foldl_readChar_digits _ fun d member => small d (rest.subset member)]
    refine (asked_eq _ (p := c.first) (w := c.last) (.inl number) ?_).trans ?_
    · rw [UnsignedFormat.last]
      simp only
      split
      · exact wide
      · next nonempty =>
        rw [if_neg nonempty] at later
        exact later
    · simp [zero_mem_dropWhile,or_assoc]

theorem runs_of_no_zero (width : 48 ∉ c.wDigits) (prec : 48 ∉ c.pDigits) : c.first = c.p ∧ c.last = c.w := by
  have nonzero : ∀ {l : List UInt8}, 48 ∉ l → ∀ d ∈ l, (d != 48) = true :=
    fun no d member => bne_iff_ne.mpr fun zero => no (zero ▸ member)
  have whole : lastRun c.wDigits = c.wDigits := by
    have kept : c.wDigits.rdropWhile (· == 48) = c.wDigits := by
      rw [List.rdropWhile_eq_self_iff]
      intro nonempty zero
      exact width (beq_iff_eq.mp zero ▸ List.getLast_mem nonempty)
    rw [lastRun,kept]
    exact List.rtakeWhile_eq_self_iff.mpr (nonzero width)
  constructor
  · rw [first,firstRun,List.takeWhile_eq_self_iff.mpr (nonzero prec),c.p_eq.1]
  · have empty : lastRun [] = [] := rfl
    rw [last,List.dropWhile_eq_nil_iff.mpr (nonzero prec),if_pos empty,whole,c.w_eq.1]

/-- Width and precision are honoured just when no digit is a `'9'` and none is a `'0'`, or the zeros
fill the width and the numbers that the scan finds between the zeros have the same maximum, each
cut to eleven digits. -/
theorem width_precision_honoured (c : UnsignedFormat) :
    c.Honoured ↔ (57 ∉ c.wDigits ∧ 57 ∉ c.pDigits) ∧
      (48 ∉ c.wDigits ∧ 48 ∉ c.pDigits ∨
        (c.zero ∨ min c.w 11 ≤ max 1 (min c.p 11)) ∧
          max 1 (min (max c.first c.last) 11) = max 1 (min (max c.p c.w) 11)) := by
  rw [c.honoured_iff_asked,c.nine_iff,not_or]
  apply and_congr_right
  rintro ⟨width,prec⟩
  rw [c.readModifiers_asked width prec,asked]
  by_cases zeros : 48 ∈ c.wDigits ∨ 48 ∈ c.pDigits
  · have some_ : ¬(48 ∉ c.wDigits ∧ 48 ∉ c.pDigits) := fun none => not_or.mpr none zeros
    rw [if_pos (.inr zeros),or_iff_right some_]
    rw [leastChars_absorb (Nat.le_max_right c.first c.last)]
    split
    · next zero =>
      rw [leastChars_absorb (Nat.le_max_right c.p c.w),Prod.mk.injEq,and_self]
      exact (and_iff_right (.inl zero)).symm
    · next zero =>
      rw [or_iff_right zero,leastDigits_max c.p c.w,leastChars,Prod.mk.injEq]
      generalize max 1 (min c.p 11) = d
      generalize min c.w 11 = w
      omega
  · obtain ⟨first,last⟩ := c.runs_of_no_zero (not_or.mp zeros).1 (not_or.mp zeros).2
    refine iff_of_true ?_ (.inl (not_or.mp zeros))
    simp only [first,last,zeros,or_false]

theorem ten_decimal : ∀ c ∈ chars "10", 48 ≤ c ∧ c ≤ 57 := by decide +kernel

theorem ten_small : decimalValue (chars "10") < 2 ^ 31 := by decide +kernel

def ten : Numeral := ⟨chars "10", List.cons_ne_nil _ _, ten_decimal, ten_small⟩

theorem ten_leading : ∀ w ∈ some ten, w.digits.head? ≠ some 48 := by decide +kernel

theorem unsigned_known : 'u'.toUInt8 ∈ ['u','o','x','X'].map Char.toUInt8 := by decide +kernel

/-- `%10u`: the `'0'` is taken for the flag. -/
def tenWide : UnsignedFormat where
  zero := false
  width := some ten
  prec := none
  type := 'u'.toUInt8
  leading := ten_leading
  known := unsigned_known

/-- It makes no field of ten characters. -/
theorem ten_wide_narrow : ¬tenWide.Honoured := by
  intro honoured
  obtain ⟨o,worked,cut⟩ := (returns_iff (by decide)).mp (honoured (number 0) 20 (by decide +kernel))
  have narrow : execute 20 (number 0) false (pieces tenWide.format) 0 ⟨[],0⟩ = some ⟨chars "0",1⟩ := by decide +kernel
  rw [narrow] at worked
  cases worked
  revert cut
  decide +kernel

end UnsignedFormat

end Buenos.Lib.Xprintf
