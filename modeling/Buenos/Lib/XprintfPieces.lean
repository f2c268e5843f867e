import Buenos.Lib.Xprintf
import Mathlib.Data.List.TakeWhile

/-! The format in pieces: plain characters and conversions. On the pieces the loops of
`vxnprintf` become one recursion, which fails to end only at a `'9'` among modifiers. -/
namespace Buenos.Lib.Xprintf

open Buenos.Foundation

/-! ### Pieces -/

/-- A conversion has its modifiers and the type of its argument; at the end of the format the
type may be missing. -/
inductive Piece where
  | plain (c : UInt8)
  | conversion (mods : List UInt8) (ch : UInt8)
  | unfinished (mods : List UInt8)
  deriving DecidableEq

def Piece.mods : Piece → List UInt8
  | .plain _ => []
  | .conversion mods _ => mods
  | .unfinished mods => mods

/-- The digits that `scan_int` takes. -/
def scanned (c : UInt8) : Bool := 48 < c ∧ c < 57

def isModifier (c : UInt8) : Bool :=
  c = '#'.toUInt8 ∨ c = '0'.toUInt8 ∨ c = ' '.toUInt8 ∨ c = '+'.toUInt8 ∨ c = '-'.toUInt8 ∨ c = '.'.toUInt8 ∨
    '1'.toUInt8 ≤ c ∧ c ≤ '9'.toUInt8

/-- Outside a conversion, or inside one behind some modifiers. -/
def piecesFrom : Option (List UInt8) → List UInt8 → List Piece
  | none, [] => []
  | none, c :: rest => if c = '%'.toUInt8 then piecesFrom (some []) rest else .plain c :: piecesFrom none rest
  | some mods, [] => [.unfinished mods]
  | some mods, c :: rest =>
    if isModifier c then piecesFrom (some (mods ++ [c])) rest else .conversion mods c :: piecesFrom none rest

def pieces (fmt : List UInt8) : List Piece := piecesFrom none fmt

/-! ### Modifiers character by character -/

/-- Where a digit goes. -/
inductive Field where
  | new
  | width
  | prec
  deriving DecidableEq

structure Reading where
  modifiers : Modifiers
  field : Field
  deriving DecidableEq

def setFlag (m : Modifiers) (c : UInt8) : Modifiers :=
  if c = '#'.toUInt8 then { m with flags.alt := true }
  else if c = '0'.toUInt8 then { m with flags.zeropad := true }
  else if c = ' '.toUInt8 then { m with flags.space := true }
  else if c = '+'.toUInt8 then { m with flags.sign := true }
  else if c = '-'.toUInt8 then { m with flags.left := true }
  else m

def addDigit (value : Int) (c : UInt8) : Int := wrap (10 * value + (c.toNat - 48))

def readChar (r : Reading) (c : UInt8) : Reading :=
  if scanned c then
    match r.field with
    | .new => ⟨{ r.modifiers with width := addDigit 0 c }, .width⟩
    | .width => ⟨{ r.modifiers with width := addDigit r.modifiers.width c }, .width⟩
    | .prec => ⟨{ r.modifiers with prec := addDigit r.modifiers.prec c }, .prec⟩
  else if c = '.'.toUInt8 then ⟨{ r.modifiers with prec := 0 }, .prec⟩
  else ⟨setFlag r.modifiers c, .new⟩

def readFrom (m : Modifiers) (field : Field) (mods : List UInt8) : Modifiers :=
  (mods.foldl readChar ⟨m, field⟩).modifiers

/-- Digits from `'1'` to `'8'` that stand together make a number: a precision behind a point,
and else a width. A `'0'` is a flag wherever it stands. -/
def readModifiers (tty : Bool) (mods : List UInt8) : Modifiers := readFrom ⟨.none tty, -1, -1⟩ .new mods

/-! ### The modifier loop -/

theorem scanInt_eq (value : Int) (l : List UInt8) :
    scanInt value l = ((l.takeWhile scanned).foldl addDigit value, l.dropWhile scanned) := by
  induction l generalizing value with
  | nil => rfl
  | cons c rest ih =>
    by_cases digit : scanned c = true
    · have range : 48 < c ∧ c < 57 := by simpa [scanned] using digit
      rw [scanInt,if_pos range,ih,List.takeWhile_cons_of_pos digit,List.dropWhile_cons_of_pos digit]
      rfl
    · have range : ¬(48 < c ∧ c < 57) := by simpa [scanned] using digit
      rw [scanInt,if_neg range,List.takeWhile_cons_of_neg digit,List.dropWhile_cons_of_neg digit]
      rfl

theorem scanned_modifier (digit : scanned c = true) : isModifier c = true := by
  have range : 48 < c ∧ c < 57 := by simpa [scanned] using digit
  have low : '1'.toUInt8 ≤ c := by
    rw [UInt8.le_iff_toNat_le]
    exact UInt8.lt_iff_toNat_lt.mp range.1
  have high : c ≤ '9'.toUInt8 := UInt8.le_of_lt range.2
  simp [isModifier,low,high]

/-- Behind the digits of a number it does not matter where they went. -/
theorem readFrom_field (m : Modifiers) (field : Field) {l : List UInt8} (stop : ∀ c ∈ l.head?, scanned c = false) :
    readFrom m field l = readFrom m .new l := by
  cases l with
  | nil => rfl
  | cons c rest =>
    have other := stop c rfl
    simp only [readFrom,List.foldl_cons,readChar,other]
    rfl

theorem readFrom_digits (m : Modifiers) (l : List UInt8) :
    readFrom m .width l =
      readFrom { m with width := (l.takeWhile scanned).foldl addDigit m.width } .new (l.dropWhile scanned) ∧
    readFrom m .prec l =
      readFrom { m with prec := (l.takeWhile scanned).foldl addDigit m.prec } .new (l.dropWhile scanned) := by
  induction l generalizing m with
  | nil => exact ⟨rfl,rfl⟩
  | cons c rest ih =>
    by_cases digit : scanned c = true
    · simp only [List.takeWhile_cons_of_pos digit,List.dropWhile_cons_of_pos digit,List.foldl_cons]
      constructor
      · rw [← (ih { m with width := addDigit m.width c }).1]
        simp [readFrom,readChar,digit]
      · rw [← (ih { m with prec := addDigit m.prec c }).2]
        simp [readFrom,readChar,digit]
    · have stop : ∀ d ∈ (c :: rest).head?, scanned d = false := by
        intro d head
        cases head
        exact Bool.not_eq_true _ ▸ digit
      simp only [List.takeWhile_cons_of_neg digit,List.dropWhile_cons_of_neg digit,List.foldl_nil]
      exact ⟨readFrom_field m _ stop,readFrom_field m _ stop⟩

/-- What may stand behind the modifiers of a conversion. -/
def Ends (tail : List UInt8) : Prop := ∀ c ∈ tail.head?, isModifier c = false

theorem Ends.scanned_append (ends : Ends tail) (mods : List UInt8) :
    (mods ++ tail).takeWhile scanned = mods.takeWhile scanned ∧
    (mods ++ tail).dropWhile scanned = mods.dropWhile scanned ++ tail := by
  induction mods with
  | nil =>
    cases tail with
    | nil => exact ⟨rfl,rfl⟩
    | cons c rest =>
      have stop : ¬scanned c = true := by
        intro digit
        have := ends c rfl
        rw [scanned_modifier digit] at this
        contradiction
      exact ⟨List.takeWhile_cons_of_neg stop,List.dropWhile_cons_of_neg stop⟩
  | cons c rest ih =>
    by_cases digit : scanned c = true
    · simp [List.takeWhile_cons_of_pos digit,List.dropWhile_cons_of_pos digit,ih]
    · simp [List.takeWhile_cons_of_neg digit,List.dropWhile_cons_of_neg digit]

theorem nine_not_scanned : scanned '9'.toUInt8 = false := by decide

theorem mem_dropWhile_nine {mods : List UInt8} (member : '9'.toUInt8 ∈ mods) : '9'.toUInt8 ∈ mods.dropWhile scanned := by
  induction mods with
  | nil => exact member
  | cons c rest ih =>
    by_cases digit : scanned c = true
    · rw [List.dropWhile_cons_of_pos digit]
      rcases List.mem_cons.mp member with rfl | later
      · rw [nine_not_scanned] at digit
        contradiction
      · exact ih later
    · rwa [List.dropWhile_cons_of_neg digit]

theorem modifier_none (other : isModifier c = false) (fmt : List UInt8) (m : Modifiers) : modifier c fmt m = none := by
  simp only [isModifier,decide_eq_false_iff_not,not_or] at other
  obtain ⟨alt,zero,space,sign,left,point,digit⟩ := other
  simp [modifier,alt,zero,space,sign,left,point,digit]

theorem modifier_some (ends : Ends tail) (known : isModifier c = true) (notNine : c ≠ '9'.toUInt8) (mods : List UInt8)
    (m : Modifiers) : ∃ m' rest, modifier c (mods ++ tail) m = some (m', rest ++ tail) ∧
      readFrom m .new (c :: mods) = readFrom m' .new rest ∧ rest <:+ mods ∧ ('9'.toUInt8 ∈ mods → '9'.toUInt8 ∈ rest) := by
  obtain ⟨taken,dropped⟩ := ends.scanned_append mods
  by_cases point : c = '.'.toUInt8
  · subst point
    refine ⟨{ m with prec := (mods.takeWhile scanned).foldl addDigit 0 },mods.dropWhile scanned,?_,?_,
      List.dropWhile_suffix _,mem_dropWhile_nine⟩
    · have precision : modifier '.'.toUInt8 (mods ++ tail) m =
          some ({ m with prec := (scanInt 0 (mods ++ tail)).1 },(scanInt 0 (mods ++ tail)).2) := rfl
      rw [precision,scanInt_eq,taken,dropped]
    · rw [← (readFrom_digits { m with prec := 0 } mods).2]
      rfl
  by_cases digit : scanned c = true
  · have range : 48 < c ∧ c < 57 := by simpa [scanned] using digit
    have low : '1'.toUInt8 ≤ c := by
      rw [UInt8.le_iff_toNat_le]
      exact UInt8.lt_iff_toNat_lt.mp range.1
    have high : c ≤ '9'.toUInt8 := UInt8.le_of_lt range.2
    have number : modifier c (mods ++ tail) m = some ({ m with width := (scanInt 0 (c :: (mods ++ tail))).1 },
        (scanInt 0 (c :: (mods ++ tail))).2) := by
      have apart : ∀ d : UInt8, scanned d = false → c ≠ d := by
        rintro d other rfl
        rw [digit] at other
        contradiction
      rw [modifier,if_neg (apart _ (by decide)),if_neg (apart _ (by decide)),if_neg (apart _ (by decide)),
        if_neg (apart _ (by decide)),if_neg (apart _ (by decide)),if_neg point,if_pos ⟨low,high⟩]
    refine ⟨{ m with width := (mods.takeWhile scanned).foldl addDigit (addDigit 0 c) },mods.dropWhile scanned,?_,?_,
      List.dropWhile_suffix _,mem_dropWhile_nine⟩
    · rw [number,scanInt_eq,List.takeWhile_cons_of_pos digit,List.dropWhile_cons_of_pos digit,taken,dropped]
      rfl
    · rw [← (readFrom_digits { m with width := addDigit 0 c } mods).1]
      simp [readFrom,readChar,digit]
  · refine ⟨setFlag m c,mods,?_,?_,List.suffix_refl _,id⟩
    · have cases : c = '#'.toUInt8 ∨ c = '0'.toUInt8 ∨ c = ' '.toUInt8 ∨ c = '+'.toUInt8 ∨ c = '-'.toUInt8 := by
        simp only [isModifier,decide_eq_true_eq] at known
        rcases known with alt | zero | space | sign | left | dot | ⟨low,high⟩
        · exact .inl alt
        · exact .inr (.inl zero)
        · exact .inr (.inr (.inl space))
        · exact .inr (.inr (.inr (.inl sign)))
        · exact .inr (.inr (.inr (.inr left)))
        · contradiction
        · exfalso
          apply digit
          rw [scanned,decide_eq_true_eq]
          refine ⟨UInt8.lt_iff_toNat_lt.mpr (UInt8.le_iff_toNat_le.mp low),?_⟩
          exact UInt8.lt_of_le_of_ne high notNine
      rcases cases with rfl | rfl | rfl | rfl | rfl <;> rfl
    · simp only [readFrom,List.foldl_cons,readChar,digit,point]
      rfl

def behind (m : Modifiers) : List UInt8 → Option (UInt8 × List UInt8 × Modifiers)
  | [] => none
  | ch :: rest => some (ch, rest, m)

/-- The loop over the modifiers of a conversion, which without a `'9'` are read once. -/
theorem scanModifiers_read (ends : Ends tail) {mods : List UInt8} (known : ∀ c ∈ mods, isModifier c = true)
    (noNine : '9'.toUInt8 ∉ mods) (split : ch :: fmt = mods ++ tail) (enough : mods.length < fuel) (m : Modifiers) :
    scanModifiers fuel ch fmt m = some (behind (readFrom m .new mods) tail) := by
  induction fuel generalizing ch fmt mods m with
  | zero => omega
  | succ fuel ih =>
    cases mods with
    | nil =>
      rw [List.nil_append] at split
      subst split
      rw [scanModifiers,modifier_none (ends ch rfl)]
      rfl
    | cons c mods =>
      rw [List.cons_append] at split
      obtain ⟨rfl,rfl⟩ := List.cons.inj split
      have notNine : ch ≠ '9'.toUInt8 := by
        rintro rfl
        exact noNine List.mem_cons_self
      obtain ⟨m',rest,round,same,suffix,_⟩ := modifier_some ends (known ch List.mem_cons_self) notNine mods m
      rw [scanModifiers,round,same]
      have shorter := suffix.length_le
      have later : ∀ c ∈ rest, isModifier c = true := fun c member => known c (List.mem_cons_of_mem _ (suffix.mem member))
      have noLater : '9'.toUInt8 ∉ rest := fun member => noNine (List.mem_cons_of_mem _ (suffix.mem member))
      rw [List.length_cons] at enough
      cases next : rest ++ tail with
      | nil =>
        obtain ⟨rfl,rfl⟩ := List.append_eq_nil_iff.mp next
        rfl
      | cons ch fmt => exact ih later noLater next.symm (by omega) m'

/-- At a `'9'` the loop makes no progress. -/
theorem scanModifiers_nine (ends : Ends tail) {mods : List UInt8} (known : ∀ c ∈ mods, isModifier c = true)
    (nine : '9'.toUInt8 ∈ mods) (split : ch :: fmt = mods ++ tail) (fuel : Nat) (m : Modifiers) :
    scanModifiers fuel ch fmt m = none := by
  induction fuel generalizing ch fmt mods m with
  | zero => rfl
  | succ fuel ih =>
    cases mods with
    | nil => exact absurd nine List.not_mem_nil
    | cons c mods =>
      rw [List.cons_append] at split
      obtain ⟨rfl,rfl⟩ := List.cons.inj split
      by_cases here : ch = '9'.toUInt8
      · subst here
        have stays : modifier '9'.toUInt8 (mods ++ tail) m = some ({ m with width := 0 },'9'.toUInt8 :: (mods ++ tail)) := rfl
        rw [scanModifiers,stays]
        exact ih known nine rfl _
      · obtain ⟨m',rest,round,_,suffix,kept⟩ := modifier_some ends (known ch List.mem_cons_self) here mods m
        rw [scanModifiers,round]
        have later := kept ((List.mem_cons.mp nine).resolve_left (Ne.symm here))
        cases next : rest ++ tail with
        | nil =>
          rw [(List.append_eq_nil_iff.mp next).1] at later
          contradiction
        | cons ch fmt =>
          exact ih (fun c member => known c (List.mem_cons_of_mem _ (suffix.mem member))) later next.symm m'

theorem scanModifiers_mono (ended : scanModifiers fuel ch fmt m = some x) (more : Nat) :
    scanModifiers (fuel + more) ch fmt m = some x := by
  induction fuel generalizing ch fmt m with
  | zero => contradiction
  | succ fuel ih =>
    rw [Nat.succ_add,scanModifiers]
    rw [scanModifiers] at ended
    split at ended
    · exact ended
    · exact ended
    · exact ih ended

/-! ### The main loop -/

section Loop
variable (size : Int) (ap : Arguments) (tty : Bool)

def execute : List Piece → Nat → Out → Option Out
  | [], _, o => some o
  | p :: rest, k, o =>
    if o.written < size then
      match p with
      | .plain c => execute rest k (o.put (.none tty) c)
      | .conversion mods ch =>
        if '9'.toUInt8 ∈ mods then none
        else execute rest (k + (convert size ap k ch (readModifiers tty mods) o).2)
          (convert size ap k ch (readModifiers tty mods) o).1
      | .unfinished mods => if '9'.toUInt8 ∈ mods then none else execute rest k o
    else some o

variable {size ap tty}

theorem mainLoop_plain (plain : ch ≠ '%'.toUInt8) : mainLoop size ap tty (fuel + 1) (ch :: fmt) k o =
    if o.written < size then mainLoop size ap tty fuel fmt k (o.put (.none tty) ch) else some o := by
  cases fmt <;> simp [mainLoop,plain]

theorem mainLoop_mono (ended : mainLoop size ap tty fuel fmt k o = some x) (more : Nat) :
    mainLoop size ap tty (fuel + more) fmt k o = some x := by
  induction fuel generalizing fmt k o with
  | zero => contradiction
  | succ fuel ih =>
    rw [Nat.succ_add]
    cases fmt with
    | nil => exact ended
    | cons ch fmt =>
      by_cases percent : ch = '%'.toUInt8
      swap
      · rw [mainLoop_plain percent] at ended ⊢
        split at ended
        · next room => rw [if_pos room]; exact ih ended
        · next full => rw [if_neg full]; exact ended
      cases fmt with
      | nil =>
        subst percent
        exact ended
      | cons ch fmt =>
        rw [mainLoop,if_neg (not_not.mpr percent)] at ended ⊢
        split at ended
        swap
        · next full => rw [if_neg full]; exact ended
        next room =>
        rw [if_pos room]
        split at ended
        · contradiction
        · next scan => rw [scanModifiers_mono scan]; exact ended
        · next scan => rw [scanModifiers_mono scan]; exact ih ended

def conversionFrom (mods : List UInt8) : List UInt8 → List Piece
  | [] => [.unfinished mods]
  | ch :: rest => .conversion mods ch :: pieces rest

theorem piecesFrom_some (ends : Ends tail) (before mods : List UInt8) (known : ∀ c ∈ mods, isModifier c = true) :
    piecesFrom (some before) (mods ++ tail) = conversionFrom (before ++ mods) tail := by
  induction mods generalizing before with
  | nil =>
    cases tail with
    | nil => simp [piecesFrom,conversionFrom]
    | cons ch rest => simp [piecesFrom,conversionFrom,pieces,ends ch rfl]
  | cons c mods ih =>
    rw [List.cons_append,piecesFrom,if_pos (known c List.mem_cons_self),
      ih (before ++ [c]) fun d member => known d (List.mem_cons_of_mem c member)]
    simp

theorem modifiers_split (fmt : List UInt8) : ∃ mods tail, fmt = mods ++ tail ∧ (∀ c ∈ mods, isModifier c = true) ∧
    Ends tail := by
  refine ⟨fmt.takeWhile isModifier,fmt.dropWhile isModifier,List.takeWhile_append_dropWhile.symm,
    fun c member => List.mem_takeWhile_imp member,?_⟩
  intro c head
  have stop := List.head?_dropWhile_not isModifier fmt
  rw [Option.mem_def.mp head] at stop
  simpa using stop

/-- With enough rounds the main loop does what it does on the pieces. -/
theorem mainLoop_execute (enough : fmt.length < fuel) (k : Nat) (o : Out) :
    mainLoop size ap tty fuel fmt k o = execute size ap tty (pieces fmt) k o := by
  induction fuel generalizing fmt k o with
  | zero => omega
  | succ fuel ih =>
    cases fmt with
    | nil => simp [mainLoop,pieces,piecesFrom,execute]
    | cons ch fmt =>
      rw [List.length_cons] at enough
      by_cases percent : ch = '%'.toUInt8
      swap
      · have cut : pieces (ch :: fmt) = .plain ch :: pieces fmt := if_neg percent
        rw [mainLoop_plain percent,ih (by omega),cut]
        rfl
      rw [pieces,piecesFrom,if_pos percent]
      obtain ⟨mods,tail,rfl,known,ends⟩ := modifiers_split fmt
      rw [piecesFrom_some ends [] mods known,List.nil_append]
      rw [List.length_append] at enough
      cases split : mods ++ tail with
      | nil =>
        obtain ⟨rfl,rfl⟩ := List.append_eq_nil_iff.mp split
        simp [mainLoop,percent,conversionFrom,execute]
      | cons ch fmt =>
        rw [mainLoop,if_neg (not_not.mpr percent)]
        by_cases nine : '9'.toUInt8 ∈ mods
        · rw [scanModifiers_nine ends known nine split.symm]
          cases tail <;> simp [conversionFrom,execute,nine]
        rw [scanModifiers_read ends known nine split.symm (by omega)]
        cases tail with
        | nil => simp [behind,conversionFrom,execute,nine]
        | cons type rest =>
          rw [List.length_cons] at enough
          simp only [behind,conversionFrom,execute,nine,if_false,ih (by omega : rest.length < fuel)]
          rfl

/-- The call returns just when the pieces can be worked off. -/
theorem returns_iff (positive : 0 < size) : Returns size fmt ap tty r ↔
    ∃ o, execute size ap tty (pieces fmt) 0 ⟨[],0⟩ = some o ∧ terminate size tty o = r := by
  simp only [Returns,vxnprintf,if_neg (Int.not_le.mpr positive),Option.map_eq_some_iff]
  constructor
  · rintro ⟨fuel,o,ended,rfl⟩
    refine ⟨o,?_,rfl⟩
    rw [← mainLoop_execute (by omega : fmt.length < fuel + (fmt.length + 1))]
    exact mainLoop_mono ended _
  · rintro ⟨o,worked,rfl⟩
    refine ⟨fmt.length + 1,o,?_,rfl⟩
    rw [mainLoop_execute (Nat.lt_succ_self _)]
    exact worked

end Loop

end Buenos.Lib.Xprintf
