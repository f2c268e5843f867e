import Buenos.Foundation.Int32
import Mathlib.Data.List.Basic

/-! Formatted output, `lib/xprintf.c`. A C string is the list of its characters without the
NUL, so the end of the format is the empty list. -/
namespace Buenos.Lib.Xprintf

open Buenos.Foundation

/-- The bits of `flags`. -/
structure Flags where
  tty : Bool
  smalls : Bool
  alt : Bool
  zeropad : Bool
  left : Bool
  space : Bool
  sign : Bool
  deriving DecidableEq

/-- `flags & FLAG_TTY`. -/
def Flags.none (tty : Bool) : Flags := ⟨tty, false, false, false, false, false, false⟩

/-- The words of a `va_list`, and the string at each address. -/
structure Arguments where
  word : Nat → UInt32
  string : UInt32 → List UInt8

/-- What `printc` has output: the characters on the terminal, or the bytes from the start of
the buffer on, `buf` being behind the last of them. The count passes `size` by at most one. -/
structure Out where
  text : List UInt8
  written : Int
  deriving DecidableEq

/-- No NUL goes to the terminal. -/
def printc (text : List UInt8) (c : UInt8) (flags : Flags) : List UInt8 :=
  if flags.tty && c == 0 then text else text ++ [c]

/-- `printc(buf++, c, flags); written++`. -/
def Out.put (flags : Flags) (o : Out) (c : UInt8) : Out := ⟨printc o.text c flags, o.written + 1⟩

def Out.puts (flags : Flags) (o : Out) (cs : List UInt8) : Out := cs.foldl (Out.put flags) o

/-! ### Numbers -/

/-- `digits`, the capitals first. -/
def digit (smalls : Bool) (d : Nat) : UInt8 :=
  UInt8.ofNat (if d < 10 then 48 + d else if smalls then 87 + d else 55 + d)

/-- The `do` loop of `print_uint`, which fills `rev`. There is room for eleven digits. -/
def reversed (smalls : Bool) (base : Nat) : Nat → Nat → List UInt8
  | 0, _ => []
  | room + 1, n => digit smalls (n % base) :: if n / base = 0 then [] else reversed smalls base room (n / base)

def pad (c : UInt8) (upto : Int) (rev : List UInt8) : List UInt8 :=
  rev ++ List.replicate (upto - rev.length).toNat c

/-- `rev` read backwards, from its last character to its first. -/
def uintText (flags : Flags) (n base : Nat) (prec width : Int) : List UInt8 :=
  (pad 32 (min width 11) (pad 48 (min prec 11) (reversed flags.smalls base 11 n))).reverse

def printUint (o : Out) (size : Int) (n base : Nat) (flags : Flags) (prec width : Int) : Out :=
  if size ≤ 0 then o else o.puts flags ((uintText flags n base prec width).take size.toNat)

/-- `scan_int`, with the value so far. The characters `'0'` and `'9'` are no digits here. -/
def scanInt (value : Int) : List UInt8 → Int × List UInt8
  | [] => (value, [])
  | c :: rest =>
    if 48 < c ∧ c < 57 then scanInt (wrap (10 * value + (c.toNat - 48))) rest else (value, c :: rest)

/-! ### Flags and modifiers -/

structure Modifiers where
  flags : Flags
  width : Int
  prec : Int
  deriving DecidableEq

/-- The first `switch`: the modifiers and the rest of the format, `none` where the character is
no modifier. For a field width the format steps back to the digit. -/
def modifier (ch : UInt8) (fmt : List UInt8) (m : Modifiers) : Option (Modifiers × List UInt8) :=
  if ch = '#'.toUInt8 then some ({ m with flags.alt := true }, fmt)
  else if ch = '0'.toUInt8 then some ({ m with flags.zeropad := true }, fmt)
  else if ch = ' '.toUInt8 then some ({ m with flags.space := true }, fmt)
  else if ch = '+'.toUInt8 then some ({ m with flags.sign := true }, fmt)
  else if ch = '-'.toUInt8 then some ({ m with flags.left := true }, fmt)
  else if ch = '.'.toUInt8 then some ({ m with prec := (scanInt 0 fmt).1 }, (scanInt 0 fmt).2)
  else if '1'.toUInt8 ≤ ch ∧ ch ≤ '9'.toUInt8 then
    some ({ m with width := (scanInt 0 (ch :: fmt)).1 }, (scanInt 0 (ch :: fmt)).2)
  else none

/-- The `do` loop: the type of the argument, the rest of the format and the modifiers. The
outer `none` is a loop that has not ended, the inner one the end of the format. -/
def scanModifiers : Nat → UInt8 → List UInt8 → Modifiers → Option (Option (UInt8 × List UInt8 × Modifiers))
  | 0, _, _, _ => none
  | fuel + 1, ch, fmt, m =>
    match modifier ch fmt m with
    | none => some (some (ch, fmt, m))
    | some (_, []) => some none
    | some (m, ch :: fmt) => scanModifiers fuel ch fmt m

/-! ### The conversions -/

def printString (flags : Flags) (w : Int) : List UInt8 → Out → Out
  | [], o => o
  | c :: rest, o => if o.written < w then printString flags w rest (o.put flags c) else o

def printSigned (size : Int) (m : Modifiers) (arg : Int) (o : Out) : Out :=
  let o' := if arg < 0 then o.put m.flags '-'.toUInt8 else o
  let arg := if arg < 0 then wrap (-arg) else arg
  let o' := if m.flags.sign then o'.put m.flags '+'.toUInt8
    else if m.flags.space then o'.put m.flags ' '.toUInt8 else o'
  printUint o' (size - o'.written) (toU32 arg) 10 m.flags 0 0

def printUnsigned (size : Int) (m : Modifiers) (uarg : UInt32) (base : Nat) (o : Out) : Out :=
  let prec := if m.prec < m.width ∧ m.flags.zeropad then m.width else m.prec
  printUint o (size - o.written) uarg.toNat base m.flags prec m.width

/-- `%p`, `%x` and `%X`, with their flags set. -/
def printHex (size : Int) (m : Modifiers) (uarg : UInt32) (o : Out) : Out :=
  if m.flags.alt then
    let o := o.put m.flags '0'.toUInt8
    let o := if o.written < size then o.put m.flags 'x'.toUInt8 else o
    printUnsigned size { m with width := wrap (m.width - 2) } uarg 16 o
  else printUnsigned size m uarg 16 o

def printStringArg (size : Int) (m : Modifiers) (s : List UInt8) (o : Out) : Out :=
  let w := if m.prec ≠ -1 ∧ wrap (o.written + m.prec) < size then wrap (o.written + m.prec) else size
  printString m.flags w s o

/-- The second `switch`, with the next argument: the output and the number of arguments used. -/
def convert (size : Int) (ap : Arguments) (k : Nat) (ch : UInt8) (m : Modifiers) (o : Out) : Out × Nat :=
  if ch = 'i'.toUInt8 ∨ ch = 'd'.toUInt8 then (printSigned size m (toS32 (ap.word k).toNat) o, 1)
  else if ch = 'o'.toUInt8 then (printUnsigned size m (ap.word k) 8 o, 1)
  else if ch = 'u'.toUInt8 then (printUnsigned size m (ap.word k) 10 o, 1)
  else if ch = 'p'.toUInt8 then
    (printHex size { m with flags.alt := true, flags.smalls := true } (ap.word k) o, 1)
  else if ch = 'x'.toUInt8 then (printHex size { m with flags.smalls := true } (ap.word k) o, 1)
  else if ch = 'X'.toUInt8 then (printHex size m (ap.word k) o, 1)
  else if ch = 'c'.toUInt8 then (o.put m.flags (ap.word k).toUInt8, 1)
  else if ch = 's'.toUInt8 then (printStringArg size m (ap.string (ap.word k)) o, 1)
  else (o.put m.flags ch, 0)

/-- The main loop, from the `k`-th argument on; `none` if it has not ended. -/
def mainLoop (size : Int) (ap : Arguments) (tty : Bool) : Nat → List UInt8 → Nat → Out → Option Out
  | 0, _, _, _ => none
  | fuel + 1, fmt, k, o =>
    if o.written < size then
      match fmt with
      | [] => some o
      | ch :: fmt =>
        if ch ≠ '%'.toUInt8 then mainLoop size ap tty fuel fmt k (o.put (.none tty) ch)
        else match fmt with
          | [] => some o
          | ch :: fmt =>
            match scanModifiers fuel ch fmt ⟨.none tty, -1, -1⟩ with
            | none => none
            | some none => some o
            | some (some (ch, fmt, m)) =>
              mainLoop size ap tty fuel fmt (k + (convert size ap k ch m o).2) (convert size ap k ch m o).1
    else some o

/-- A call that has returned: its value, the characters output, and the index in the buffer
of the NUL written last, which none is to the terminal. -/
structure Result where
  returned : Int
  text : List UInt8
  terminator : Option Nat
  deriving DecidableEq

/-- The end of `vxnprintf`. -/
def terminate (size : Int) (tty : Bool) (o : Out) : Result where
  returned := if o.written = size then -1 else o.written
  text := o.text
  terminator := if tty then none else some (if o.written = size then o.text.length - 1 else o.text.length)

/-- With `fuel` rounds at most for each loop. -/
def vxnprintf (fuel : Nat) (size : Int) (fmt : List UInt8) (ap : Arguments) (tty : Bool) : Option Result :=
  if size ≤ 0 then some ⟨0, [], none⟩
  else (mainLoop size ap tty fuel fmt 0 ⟨[], 0⟩).map (terminate size tty)

/-- `snprintf` and `vsnprintf`, which differ in how they are given the arguments. -/
def snprintf (fuel : Nat) (size : Int) (fmt : List UInt8) (ap : Arguments) : Option Result :=
  vxnprintf fuel size fmt ap false

/-- Some number of rounds is enough. -/
def Returns (size : Int) (fmt : List UInt8) (ap : Arguments) (tty : Bool) (r : Result) : Prop :=
  ∃ fuel, vxnprintf fuel size fmt ap tty = some r

end Buenos.Lib.Xprintf
